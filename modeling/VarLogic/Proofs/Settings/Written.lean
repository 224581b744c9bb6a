/-
Settings that hold definitions and nothing else. What is written of definitions
is read back in the same order, repeated names included, unless the containers
of the document lie too deep for the reader; and then the document is refused
as a whole (`ofJson_document`). So the text whose hash is the id of a scope says
which definitions the scope was built from.
-/
import VarLogic.Proofs.Condition.Written
import VarLogic.Settings

namespace VarLogic

/-! ## Trees without a value -/

namespace Json

theorem itemValues?_deep {items : List Value} {depth : Nat}
    (ih : ∀ v ∈ items, depth < v.nesting → v.raw.value? depth = none)
    (hdepth : depth < itemsNesting items) : itemValues? depth (rawItems items) = none := by
  induction items with
  | nil => simp [itemsNesting] at hdepth
  | cons v vs ihvs =>
    rw [itemsNesting] at hdepth
    have hor : depth < v.nesting ∨ depth < itemsNesting vs := by omega
    rcases hor with hv | hvs
    · simp [rawItems, itemValues?, ih v (by simp) hv]
    · simp [rawItems, itemValues?, ihvs (fun w hw => ih w (by simp [hw])) hvs]

theorem memberValues?_deep {members : List (String × Value)} {depth : Nat}
    (ih : ∀ m ∈ members, depth < m.2.nesting → m.2.raw.value? depth = none)
    (hdepth : depth < membersNesting members) : memberValues? depth (rawMembers members) = none := by
  induction members with
  | nil => simp [membersNesting] at hdepth
  | cons m ms ihms =>
    obtain ⟨key, v⟩ := m
    rw [membersNesting] at hdepth
    have hor : depth < v.nesting ∨ depth < membersNesting ms := by omega
    rcases hor with hv | hms
    · simp [rawMembers, memberValues?, ih (key, v) (by simp) hv]
    · simp [rawMembers, memberValues?, ihms (fun w hw => ih w (by simp [hw])) hms]

/-- A tree whose containers lie too deep has no value. -/
theorem value?_raw_deep {v : Value} (h : v.NumberFree) {depth : Nat} (hdepth : depth < v.nesting) :
    v.raw.value? depth = none := by
  induction h generalizing depth with
  | null | boolean | string => simp [Value.nesting] at hdepth
  | @array items h ih =>
    cases depth with
    | zero => rfl
    | succ depth =>
      rw [Value.nesting, Nat.add_lt_add_iff_right] at hdepth
      simp [Value.raw, Raw.value?, itemValues?_deep (fun v hv hd => ih v hv hd) hdepth]
  | @object members h ih =>
    cases depth with
    | zero => rfl
    | succ depth =>
      rw [Value.nesting, Nat.add_lt_add_iff_right] at hdepth
      simp [Value.raw, Raw.value?, memberValues?_deep (fun m hm hd => ih m hm hd) hdepth]

/-- **What was written is read back**, as far as its containers lie within reach. -/
theorem value?_raw_eq {v : Value} (h : v.NumberFree) (depth : Nat) :
    v.raw.value? depth = if v.nesting ≤ depth then some v else none := by
  split
  · exact value?_raw h ‹_›
  · exact value?_raw_deep h (by omega)

end Json

/-! ## Documents -/

namespace Definitions

theorem ofMembers_toValue (definitions : Definitions) :
    ofMembers (definitions.map fun (name, c) => (name, c.toValue)) = .ok definitions := by
  induction definitions with
  | nil => rfl
  | cons d definitions ih =>
    obtain ⟨name, c⟩ := d
    rw [List.map_cons, ofMembers, Condition.ofValue_toValue, ih]
    rfl

/-- **Definitions that were written are read back**, in order. -/
theorem ofValue_toValue (definitions : Definitions) : ofValue definitions.toValue = .ok definitions :=
  ofMembers_toValue definitions

/-- The settings document that holds definitions and nothing else. -/
def document (definitions : Definitions) : Json.Value :=
  .object [("conditions", definitions.toValue)]

theorem numberFree_document (definitions : Definitions) : definitions.document.NumberFree :=
  .object fun m hm => by
    rw [List.mem_singleton.1 hm]
    exact definitions.numberFree_toValue

end Definitions

namespace Settings

theorem ofValue_document (definitions : Definitions) :
    ofValue .json definitions.document = .ok { layout := .compact, definitions } := by
  simp only [Definitions.document, ofValue, List.foldlM_cons, List.foldlM_nil, Fields.member,
    Decode.once, Definitions.ofValue_toValue]
  rfl

/-- **A document that holds definitions and nothing else gives these definitions**,
the same entries in the same order, with the default layout, if its containers
are nested less than 128 deep; a deeper one is refused. And no two lists of
definitions have the same text, so none have the same input to their hash. -/
theorem ofJson_document :
    (∀ definitions : Definitions, ofJson definitions.document.compact =
      if definitions.document.nesting < 128 then .ok { layout := .compact, definitions }
      else .error .malformed) ∧
    Function.Injective fun definitions : Definitions => definitions.toValue.compact := by
  refine ⟨fun definitions => ?_, fun _ _ h => Definitions.compact_inj h⟩
  have htree := Json.ofText?_compact definitions.numberFree_document
  have hvalue := Json.value?_raw_eq definitions.numberFree_document Json.maxDepth
  have hskim : skim definitions.document.raw = definitions.document.raw := rfl
  rw [ofJson, readJson, htree]
  have hlimit : definitions.document.nesting < 128 ↔ definitions.document.nesting ≤ Json.maxDepth :=
    Nat.lt_succ_iff
  simp only [hskim, hvalue, hlimit]
  by_cases hdepth : definitions.document.nesting ≤ Json.maxDepth
  · simp only [if_pos hdepth, ofValue_document]
  · simp only [if_neg hdepth]

/-- A name twice, one that is empty, quotes and controls, and lists without a
member. -/
def oddDefinitions : Definitions :=
  [("\x7b\"\n", .leaf "\x01é\\"), ("", .or []), ("", .not (.and [.leaf "😀", .leaf ""]))]

theorem ofJson_document_odd :
    ofJson oddDefinitions.document.compact =
      .ok { layout := .compact, definitions := oddDefinitions } :=
  (ofJson_document.1 oddDefinitions).trans (if_pos (by decide))

end Settings

end VarLogic
