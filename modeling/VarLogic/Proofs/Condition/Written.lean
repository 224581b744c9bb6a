/-
Conditions written to documents. What is written has no number in it and is read
back (`ofValue_toValue`), so the text of definitions says what they are
(`Definitions.compact_inj`).
-/
import VarLogic.Definitions
import VarLogic.Proofs.Json.Written

namespace VarLogic

namespace Condition

theorem toValues_eq_map (cs : List (Condition String)) : toValues cs = cs.map toValue := by
  induction cs with
  | nil => rfl
  | cons c cs ih => rw [toValues, ih, List.map_cons]

theorem numberFree_toValue (c : Condition String) : c.toValue.NumberFree := by
  have operator : ∀ (key : String) {v : Json.Value}, v.NumberFree →
      (Json.Value.object [(key, v)]).NumberFree := fun key v hv =>
    .object fun m hm => by rw [List.mem_singleton.1 hm]; exact hv
  have operands : ∀ cs : List (Condition String), (∀ c ∈ cs, c.toValue.NumberFree) →
      (Json.Value.array (toValues cs)).NumberFree := fun cs ih =>
    .array fun v hv => by
      obtain ⟨c, hc, rfl⟩ := List.mem_map.1 (toValues_eq_map cs ▸ hv)
      exact ih c hc
  induction c with
  | leaf a => exact .string a
  | and cs ih => exact operator "and" (operands cs ih)
  | or cs ih => exact operator "or" (operands cs ih)
  | not c ih => exact operator "not" ih

theorem ofValues_toValues {cs : List (Condition String)}
    (ih : ∀ c ∈ cs, ofValue c.toValue = .ok c) : ofValues (toValues cs) = .ok cs := by
  induction cs with
  | nil => rfl
  | cons c cs ihcs =>
    rw [toValues, ofValues, ih c (by simp), ihcs fun d hd => ih d (by simp [hd])]
    rfl

/-- **A condition that was written is read back.** -/
theorem ofValue_toValue (c : Condition String) : ofValue c.toValue = .ok c := by
  induction c with
  | leaf a => rfl
  | and cs ih =>
    rw [toValue, ofValue, if_pos rfl, operands, ofValues_toValues ih]
    rfl
  | or cs ih =>
    rw [toValue, ofValue, if_neg (by decide), if_pos rfl, operands, ofValues_toValues ih]
    rfl
  | not c ih =>
    rw [toValue, ofValue, if_neg (by decide), if_neg (by decide), if_pos rfl, ih]
    rfl

theorem toValue_inj {c d : Condition String} (h : c.toValue = d.toValue) : c = d :=
  Except.ok.inj ((ofValue_toValue c).symm.trans (h ▸ ofValue_toValue d))

end Condition

namespace Definitions

theorem numberFree_toValue (definitions : Definitions) : definitions.toValue.NumberFree :=
  .object fun m hm => by
    obtain ⟨⟨name, c⟩, -, rfl⟩ := List.mem_map.1 hm
    exact c.numberFree_toValue

theorem toValue_inj {definitions others : Definitions} (h : definitions.toValue = others.toValue) :
    definitions = others := by
  refine (List.map_inj_right ?_).1 (Json.Value.object.inj h)
  rintro ⟨name, c⟩ ⟨name', c'⟩ he
  obtain ⟨hname, hc⟩ := Prod.mk.inj he
  rw [show name = name' from hname, Condition.toValue_inj hc]

/-- **Definitions of one text are the same.** -/
theorem compact_inj {definitions others : Definitions}
    (h : definitions.toValue.compact = others.toValue.compact) : definitions = others :=
  toValue_inj (Json.compact_inj definitions.numberFree_toValue others.numberFree_toValue h)

end Definitions

end VarLogic
