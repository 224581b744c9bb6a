/-
What an element has for a property. The last declaration of a property gives it
its value (`valueIn`): on an element under a sheet the inline declarations come
last, behind the rules that match, and these behind the `*` block
(`lookup_ofSheet`); declarations that are added come behind all others
(`lookup_declare`).
-/
import VarLogic.Element
import Mathlib.Data.List.Nodup

namespace VarLogic

/-! ## The last declaration -/

/-- What the last declaration of a property gives it. -/
def valueIn (ds : List Declaration) (property : String) : Option String :=
  (ds.reverse.map fun d => (d.property, d.value)).lookup property

theorem valueIn_append (as bs : List Declaration) (p : String) :
    valueIn (as ++ bs) p = (valueIn bs p).or (valueIn as p) := by
  rw [valueIn, List.reverse_append, List.map_append, List.lookup_append]
  rfl

theorem valueIn_eq_none {ds : List Declaration} {p : String} (h : p ∉ ds.map (·.property)) :
    valueIn ds p = none := by
  rw [valueIn, List.lookup_eq_none_iff]
  intro x hx
  obtain ⟨d, hd, rfl⟩ := List.mem_map.1 hx
  simp only [bne_iff_ne, ne_eq]
  exact fun he => h (List.mem_map.2 ⟨d, List.mem_reverse.1 hd, he.symm⟩)

theorem mem_of_valueIn {ds : List Declaration} {p raw : String} (h : valueIn ds p = some raw) :
    Declaration.mk p raw ∈ ds := by
  obtain ⟨as, bs, he, -⟩ := List.lookup_eq_some_iff.1 h
  obtain ⟨d, hd, hpair⟩ := List.mem_map.1 (he ▸ (by simp : (p, raw) ∈ as ++ (p, raw) :: bs))
  cases hpair
  exact List.mem_reverse.1 hd

/-- Where all declarations of a property are the same, it has what they say. -/
theorem valueIn_of_unique {ds : List Declaration} {d : Declaration} (hd : d ∈ ds)
    (hu : ∀ d' ∈ ds, d'.property = d.property → d' = d) : valueIn ds d.property = some d.value := by
  cases hraw : valueIn ds d.property with
  | none =>
    rw [valueIn, List.lookup_eq_none_iff] at hraw
    have hne := hraw (d.property, d.value) (List.mem_map.2 ⟨d, List.mem_reverse.2 hd, rfl⟩)
    simp at hne
  | some raw => rw [← hu _ (mem_of_valueIn hraw) rfl]

theorem valueIn_of_mem {ds : List Declaration} (hn : (ds.map (·.property)).Nodup) {d : Declaration}
    (hd : d ∈ ds) : valueIn ds d.property = some d.value :=
  valueIn_of_unique hd fun _ hd' => List.inj_on_of_nodup_map hn hd' hd

/-- The order of declarations does not matter where no property is declared
twice. -/
theorem valueIn_congr {as bs : List Declaration} {p : String} (hn : (bs.map (·.property)).Nodup)
    (h : ∀ d : Declaration, d.property = p → (d ∈ as ↔ d ∈ bs)) : valueIn as p = valueIn bs p := by
  by_cases hp : p ∈ bs.map (·.property)
  · obtain ⟨d, hd, rfl⟩ := List.mem_map.1 hp
    have has : ∀ d' ∈ as, d'.property = d.property → d' = d := fun d' hd' he =>
      List.inj_on_of_nodup_map hn ((h d' he).1 hd') hd he
    rw [valueIn_of_mem hn hd, valueIn_of_unique ((h d rfl).2 hd) has]
  · have has : p ∉ as.map (·.property) := fun hm => by
      obtain ⟨d, hd, he⟩ := List.mem_map.1 hm
      exact hp (List.mem_map.2 ⟨d, (h d he).1 hd, he⟩)
    rw [valueIn_eq_none hp, valueIn_eq_none has]

/-! ## Elements -/

namespace Element

theorem lookup_ofSheet (sheet : Sheet) (inline : List Declaration) (isActive : Hook → Bool)
    (p : String) :
    (ofSheet sheet inline isActive).declared.lookup p =
      (valueIn inline p).or
        ((valueIn ((sheet.rules.filter (isActive ·.hook)).flatMap (·.declarations)) p).or
          (valueIn sheet.defaults p)) := by
  rw [← valueIn_append, ← valueIn_append]
  rfl

/-- The element with some declarations more, which win over what it has. -/
def declare (e : Element) (ds : List Declaration) : Element where
  declared := (ds.reverse.map fun d => (d.property, d.value)) ++ e.declared

theorem lookup_declare (e : Element) (ds : List Declaration) (p : String) :
    (e.declare ds).declared.lookup p = (valueIn ds p).or (e.declared.lookup p) := by
  rw [declare, List.lookup_append]
  rfl

end Element

end VarLogic
