/-
Which declaration of the `*` block wins after merging. In a block the last
declaration of a property wins (`valueIn`), but merging goes through the other
sheet from its front and leaves out what is declared by then, be it by that sheet
itself. So what the sheet declares wins over the other one, and of the other one
the first declaration is left (`valueIn_mergeDefaults`). That is the one that won
there only if the other sheet does not take it back behind (`valueIn_merge`).
-/
import VarLogic.Proofs.Element.Declared
import VarLogic.Proofs.Sheet.Merging

namespace VarLogic

/-- What the first declaration of a property gives it. -/
def firstIn (ds : List Declaration) (property : String) : Option String :=
  (ds.map fun d => (d.property, d.value)).lookup property

theorem firstIn_cons (d : Declaration) (ds : List Declaration) (p : String) :
    firstIn (d :: ds) p = (valueIn [d] p).or (firstIn ds p) := by
  have hcons : (d :: ds).map (fun d => (d.property, d.value)) =
      [(d.property, d.value)] ++ ds.map fun d => (d.property, d.value) := rfl
  rw [firstIn, hcons, List.lookup_append]
  rfl

theorem isSome_valueIn {ds : List Declaration} {p : String} :
    (valueIn ds p).isSome ↔ p ∈ ds.map (·.property) := by
  have hlast : (valueIn ds p).isSome ↔ ∃ d ∈ ds, p = d.property := by
    simp [valueIn, List.lookup_isSome_iff]
  rw [hlast, List.mem_map]
  exact exists_congr fun d => and_congr_right fun _ => eq_comm

namespace Sheet

/-- A declaration counts where nothing else declares its property. -/
theorem valueIn_mergeDefault (ds : List Declaration) (d : Declaration) (p : String) :
    valueIn (mergeDefault ds d) p = (valueIn ds p).or (valueIn [d] p) := by
  have hother (hp : p ≠ d.property) : valueIn [d] p = none := valueIn_eq_none (by simpa using hp)
  by_cases hd : d.property ∈ ds.map (·.property)
  · rw [mergeDefault_of_mem hd]
    by_cases hp : p = d.property
    · obtain ⟨value, hvalue⟩ := Option.isSome_iff_exists.1 (isSome_valueIn.2 hd)
      rw [hp, hvalue, Option.some_or]
    · rw [hother hp, Option.or_none]
  · rw [mergeDefault_of_not_mem hd, valueIn_append]
    by_cases hp : p = d.property
    · rw [hp, valueIn_eq_none hd, Option.or_none, Option.none_or]
    · rw [hother hp, Option.or_none, Option.none_or]

/-- Of the declarations that are merged in, the first of a property counts. -/
theorem valueIn_mergeDefaults (ds xs : List Declaration) (p : String) :
    valueIn (xs.foldl mergeDefault ds) p = (valueIn ds p).or (firstIn xs p) := by
  induction xs generalizing ds with
  | nil => exact Option.or_none.symm
  | cons x xs ih => rw [List.foldl_cons, ih, valueIn_mergeDefault, Option.or_assoc, firstIn_cons]

/-- **What wins after merging.** A property has what wins in the sheet itself, and
otherwise what the other sheet says first. So merging keeps what the sheets mean
just where the sheet itself declares the property, or the first declaration of the
other one says the same as its last. -/
theorem valueIn_merge (sheet other : Sheet) (p : String) :
    valueIn (sheet.merge other).defaults p =
        (valueIn sheet.defaults p).or (firstIn other.defaults p) ∧
      (valueIn (sheet.merge other).defaults p =
          (valueIn sheet.defaults p).or (valueIn other.defaults p) ↔
        p ∈ sheet.defaults.map (·.property) ∨
          firstIn other.defaults p = valueIn other.defaults p) := by
  have hmerge : valueIn (sheet.merge other).defaults p =
      (valueIn sheet.defaults p).or (firstIn other.defaults p) :=
    valueIn_mergeDefaults sheet.defaults other.defaults p
  refine ⟨hmerge, ?_⟩
  rw [hmerge, ← isSome_valueIn]
  cases valueIn sheet.defaults p with
  | none => simp
  | some value => simp

/-- The sheets that can be put together from hooks, declarations and sheets. -/
inductive Built : Sheet → Prop where
  | empty : Built empty
  | addHook {sheet : Sheet} (hook : Hook) (id : String) : Built sheet → Built (sheet.addHook hook id)
  | addDefault {sheet : Sheet} (d : Declaration) : Built sheet → Built (sheet.addDefault d)
  | merge {sheet other : Sheet} : Built sheet → Built other → Built (sheet.merge other)

/-- Gap is taken back by a second declaration. -/
def takenBack : Sheet := (empty.addDefault ⟨"--gap", "1px"⟩).addDefault ⟨"--gap", "2px"⟩

/-- Merged into an empty sheet, it is the first declaration that wins. -/
theorem not_valueIn_merge :
    ¬ ∀ sheet other : Sheet, sheet.Built → other.Built → ∀ p,
      valueIn (sheet.merge other).defaults p =
        (valueIn sheet.defaults p).or (valueIn other.defaults p) := by
  intro h
  have hgap := h empty takenBack .empty (.addDefault _ (.addDefault _ .empty)) "--gap"
  exact absurd hgap (by decide)

end Sheet

end VarLogic
