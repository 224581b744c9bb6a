/-
The names in sight, and what they stand for. Names are listed from the outermost
level on, but looked up from the nearest: where levels hide names of one another, the
two go opposite ways. They agree on which names there are (`mem_names`), and the
levels of a scope that was built have a name at most once, so what a name stands for
is one entry of the nearest level that has it (`lookup?_eq_some_iff`). A name that a
scope does not define itself stands for what it stands for in the scope around
(`lookup?_of_not_mem`).
-/
import VarLogic.Proofs.Scope.Grouping

namespace VarLogic

theorem eraseDups_of_nodup {α : Type} [DecidableEq α] {xs : List α} (h : xs.Nodup) :
    xs.eraseDups = xs := by
  induction xs with
  | nil => rfl
  | cons x xs ih =>
    rw [List.nodup_cons] at h
    have hrest : xs.filter (fun y => !y == x) = xs := by
      rw [List.filter_eq_self]
      intro y hy
      simpa using fun he : y = x => h.1 (he ▸ hy)
    rw [List.eraseDups_cons, hrest, ih h.2]

namespace Level

variable {level : Level} {levels : List Level} {name : String} {c : NamedCondition}

/-! ## Entries -/

/-- The only entry of a name in a level. -/
def IsEntry (level : Level) (name : String) (c : NamedCondition) : Prop :=
  ∃ front rest, level.conditions = front ++ c :: rest ∧ c.name = name ∧
    ∀ d ∈ front ++ rest, d.name ≠ name

/-- The only entry of a name in the nearest level that defines it. -/
def IsNearest (levels : List Level) (name : String) (c : NamedCondition) : Prop :=
  ∃ nearer level outer, levels = nearer ++ level :: outer ∧ (∀ l ∈ nearer, name ∉ l.names) ∧
    level.IsEntry name c

theorem condition?_eq_none_iff : level.condition? name = none ↔ name ∉ level.names := by
  simp [condition?, names]

theorem condition?_eq_some_iff (h : level.names.Nodup) :
    level.condition? name = some c ↔ level.IsEntry name c := by
  rw [condition?, List.find?_eq_some_iff_append]
  constructor
  · rintro ⟨hname, front, rest, hlevel, hfront⟩
    obtain rfl : c.name = name := by simpa using hname
    refine ⟨front, rest, hlevel, rfl, fun d hd => ?_⟩
    rcases List.mem_append.1 hd with hd | hd
    · simpa using hfront d hd
    · -- A second entry of the name would be a second name of the level.
      rw [names, hlevel, List.map_append, List.map_cons, List.nodup_append, List.nodup_cons] at h
      exact fun he => h.2.1.1 (List.mem_map.2 ⟨d, hd, he⟩)
  · rintro ⟨front, rest, hlevel, hname, hother⟩
    refine ⟨by simpa using hname, front, rest, hlevel, fun d hd => ?_⟩
    simpa using hother d (List.mem_append_left _ hd)

/-- The level's own entries are those its names stand for. -/
theorem condition?_of_mem (h : level.names.Nodup) (hc : c ∈ level.conditions) :
    level.condition? c.name = some c := by
  cases hd : level.condition? c.name with
  | none => exact absurd (List.mem_map_of_mem hc) (condition?_eq_none_iff.1 hd)
  | some d =>
    have hname : d.name = c.name := by simpa using List.find?_some hd
    rw [List.inj_on_of_nodup_map h (List.mem_of_find?_eq_some hd) hc hname]

theorem findSome?_eq_some_iff (h : ∀ level ∈ levels, level.names.Nodup) :
    levels.findSome? (·.condition? name) = some c ↔ IsNearest levels name c := by
  rw [List.findSome?_eq_some_iff]
  refine exists_congr fun nearer => exists_congr fun level => exists_congr fun outer => ?_
  simp only [condition?_eq_none_iff]
  constructor
  · rintro ⟨rfl, hentry, hnearer⟩
    exact ⟨rfl, hnearer, (condition?_eq_some_iff (h level (by simp))).1 hentry⟩
  · rintro ⟨rfl, hnearer, hentry⟩
    exact ⟨rfl, (condition?_eq_some_iff (h level (by simp))).2 hentry, hnearer⟩

/-! ## Listing -/

theorem nodup_namesInSight (h : ∀ level ∈ levels, level.names.Nodup) :
    (namesInSight levels).Nodup := by
  induction levels with
  | nil => exact List.nodup_nil
  | cons level outer ih =>
    rw [List.forall_mem_cons] at h
    rw [namesInSight, List.nodup_append]
    refine ⟨ih h.2, h.1.filter _, ?_⟩
    rintro seen hseen name hname rfl
    simpa [hseen] using (List.mem_filter.1 hname).2

/-- The names in sight are all names from the outermost level on, each where it
comes first. -/
theorem namesInSight_eq (h : ∀ level ∈ levels, level.names.Nodup) :
    namesInSight levels = (levels.reverse.flatMap (·.names)).eraseDups := by
  induction levels with
  | nil => rfl
  | cons level outer ih =>
    rw [List.forall_mem_cons] at h
    have hnew : level.names.filter (· ∉ namesInSight outer) =
        level.names.removeAll (outer.reverse.flatMap (·.names)) := by
      refine List.filter_congr fun name _ => ?_
      simp only [ih h.2, List.mem_eraseDups, List.elem_eq_mem, decide_not]
    rw [namesInSight, List.reverse_cons, List.flatMap_append, List.flatMap_singleton,
      List.eraseDups_append, ← ih h.2, ← hnew, eraseDups_of_nodup (h.1.filter _)]

end Level

namespace Scope

variable {s : Scope} {definitions : Definitions} {parent : Option Scope} {name : String}

/-! ## The scope around -/

theorem parent?_create (h : create definitions parent = .ok s) : s.parent? = parent := by
  rw [create_eq] at h
  obtain ⟨hhash, hancestors, -⟩ := shape_defineAll h
  rw [parent?, hhash, hancestors]
  cases parent <;> rfl

/-- **A name that a scope does not define stands for what it stands for around.** -/
theorem lookup?_of_not_mem (hn : name ∉ s.level.names) :
    s.lookup? name = s.parent?.bind (·.lookup? name) := by
  rw [lookup?, levels, List.findSome?_cons, Level.condition?_eq_none_iff.2 hn, parent?]
  cases s.ancestors <;> rfl

/-- **What a name stands for** is the only entry of the nearest level that has it. -/
theorem Sound.lookup?_eq_some_iff (hs : s.Sound) {c : NamedCondition} :
    s.lookup? name = some c ↔ Level.IsNearest s.levels name c :=
  Level.findSome?_eq_some_iff hs.names

/-- A name that a scope defines stands for its definition. -/
theorem definition?_create (hs : s.Sound) (h : create definitions parent = .ok s)
    {definition : Condition String} (hd : (name, definition) ∈ definitions) :
    s.definition? name = some definition := by
  rw [← conditions_create h, List.mem_map] at hd
  obtain ⟨c, hc, he⟩ := hd
  obtain ⟨rfl, rfl⟩ := Prod.mk.inj he
  have hown := Level.condition?_of_mem (hs.names s.level (by simp [levels])) hc
  rw [definition?, lookup?, levels, List.findSome?_cons, hown]
  rfl

/-- **The names in sight.** Each is listed once, and those listed are those that can be
looked up: all names from the outermost level on, each where it comes first. These
are the names of the scope around, and then the names defined here that are not in
sight there, in the order of their definitions. What is asked about a name in sight
is answered from the only entry of the nearest level that defines it: for a name
defined here, from its definition, and for any other name as the scope around
answers, if there is one. -/
theorem names_in_sight (hp : ∀ p ∈ parent, p.Reachable)
    (h : create definitions parent = .ok s) :
    s.parent? = parent ∧ s.names.Nodup ∧ (∀ name, name ∈ s.names ↔ s.contains name = true) ∧
    s.names = (s.levels.reverse.flatMap (·.names)).eraseDups ∧
    s.names = parent.elim [] names ++
      (definitions.map (·.1)).filter (fun name => !parent.any (·.contains name)) ∧
    (∀ name ∈ s.names, ∃ c, Level.IsNearest s.levels name c ∧
      s.definition? name = some c.definition ∧ s.toggle? name = c.toggle? ∧
        s.formula name = .ok (c.compiled.map (·.formula))) ∧
    (∀ d ∈ definitions, s.definition? d.1 = some d.2) ∧
    ∀ name ∉ definitions.map (·.1),
      s.contains name = parent.any (·.contains name) ∧
      s.definition? name = parent.bind (·.definition? name) ∧
      s.toggle? name = parent.bind (·.toggle? name) ∧
      s.formula name = parent.elim (.error (.unknownCondition name)) (·.formula name) := by
  have hs := (reachable_create hp h).sound
  refine ⟨parent?_create h, Level.nodup_namesInSight hs.names, fun name => mem_names,
    Level.namesInSight_eq hs.names, ?_, fun name hn => ?_, fun d hd => definition?_create hs h hd,
    fun name hn => ?_⟩
  · rw [names_eq h]
    congr 1
    refine List.filter_congr fun name _ => ?_
    cases parent with
    | none => rfl
    | some p => simp only [Option.elim_some, Option.any_some, contains, mem_names, decide_not,
        Bool.decide_eq_true]
  · obtain ⟨c, hc⟩ := Option.isSome_iff_exists.1 (mem_names.1 hn)
    refine ⟨c, hs.lookup?_eq_some_iff.1 hc, ?_, ?_, ?_⟩
    · rw [definition?, hc, Option.map_some]
    · rw [toggle?, hc, Option.bind_some]
    · rw [formula, hc]
  · rw [← names_create h] at hn
    have hlookup := lookup?_of_not_mem hn
    rw [parent?_create h] at hlookup
    simp only [contains, definition?, toggle?, formula, hlookup]
    cases parent with
    | none => exact ⟨rfl, rfl, rfl, rfl⟩
    | some p => exact ⟨rfl, rfl, rfl, rfl⟩

/-- Three levels define the name `lit`, and the outermost one alone `dark`. -/
theorem names_in_sight_dusk :
    ∃ outermost parent s, root litDefinitions = .ok outermost ∧
      outermost.nest shadeDefinitions = .ok parent ∧
      create duskDefinitions (some parent) = .ok s ∧ s.names = ["dark", "lit", "dim", "faint"] ∧
      s.names = parent.names ++ ["faint"] ∧
      s.definition? "lit" = some (.or [.leaf "dim", .leaf "lit"]) ∧
      s.toggle? "dark" = parent.toggle? "dark" := by
  have hany : ((root litDefinitions).toOption.any fun outermost =>
      (outermost.nest shadeDefinitions).toOption.any fun parent =>
        (create duskDefinitions (some parent)).toOption.any fun s =>
          decide (s.names = ["dark", "lit", "dim", "faint"] ∧
            parent.names = ["dark", "lit", "dim"])) = true := by decide +kernel
  obtain ⟨outermost, houtermost, hany⟩ := exists_of_any hany
  obtain ⟨parent, hparent, hany⟩ := exists_of_any hany
  obtain ⟨s, hs, hany⟩ := exists_of_any hany
  obtain ⟨hnames, hparentNames⟩ := of_decide_eq_true hany
  have hp : ∀ p ∈ some parent, p.Reachable := fun p hm =>
    Option.some.inj hm ▸ .nest (.root houtermost) hparent
  obtain ⟨-, -, -, -, -, -, hown, hother⟩ := names_in_sight hp hs
  refine ⟨outermost, parent, s, houtermost, hparent, hs, hnames, ?_, ?_, ?_⟩
  · rw [hnames, hparentNames]
    rfl
  · exact hown ("lit", _) (by simp [duskDefinitions])
  · exact (hother "dark" (by simp [duskDefinitions])).2.2.1

end Scope

end VarLogic
