/-
Document values. JSON and TOML documents are both read into them, and
conditions, configurations and props are decoded from them. Members keep the
order in which they were written, and repeated keys.
-/
import VarLogic.Decimal.Double

namespace VarLogic.Json

/-- An integer is kept exactly; any other number is a double. -/
inductive Number where
  | integer (value : Int)
  | double (value : Decimal.Double)
deriving DecidableEq, Repr

inductive Value where
  | null
  | boolean (value : Bool)
  | number (value : Number)
  | string (text : String)
  | array (items : List Value)
  | object (members : List (String × Value))
deriving Repr

/-- Induction with the hypothesis for every item and every member. -/
@[elab_as_elim]
theorem Value.induction {motive : Value → Prop} (null : motive .null)
    (boolean : ∀ b, motive (.boolean b)) (number : ∀ n, motive (.number n))
    (string : ∀ s, motive (.string s))
    (array : ∀ items, (∀ v ∈ items, motive v) → motive (.array items))
    (object : ∀ members, (∀ m ∈ members, motive m.2) → motive (.object members)) : ∀ v, motive v
  | .null => null
  | .boolean b => boolean b
  | .number n => number n
  | .string s => string s
  | .array items => array items fun v _ => induction null boolean number string array object v
  | .object members => object members fun m hm =>
      have hmember := List.sizeOf_lt_of_mem hm
      have hvalue : sizeOf m.2 < sizeOf m := by
        cases m
        simp only [Prod.mk.sizeOf_spec]
        omega
      induction null boolean number string array object m.2
termination_by v => sizeOf v

/-- No object in a value repeats a key. -/
inductive Value.KeysDistinct : Value → Prop where
  | null : KeysDistinct .null
  | boolean (b : Bool) : KeysDistinct (.boolean b)
  | number (n : Number) : KeysDistinct (.number n)
  | string (s : String) : KeysDistinct (.string s)
  | array {items : List Value} : (∀ v ∈ items, KeysDistinct v) → KeysDistinct (.array items)
  | object {members : List (String × Value)} : (members.map (·.1)).Nodup →
      (∀ m ∈ members, KeysDistinct m.2) → KeysDistinct (.object members)

theorem Value.keysDistinct_array {items : List Value} :
    (Value.array items).KeysDistinct ↔ ∀ v ∈ items, v.KeysDistinct :=
  ⟨fun | .array h => h, .array⟩

theorem Value.keysDistinct_object {members : List (String × Value)} :
    (Value.object members).KeysDistinct ↔
      (members.map (·.1)).Nodup ∧ ∀ m ∈ members, m.2.KeysDistinct :=
  ⟨fun | .object hn h => ⟨hn, h⟩, fun h => .object h.1 h.2⟩

/-! ## Equality -/

mutual

/-- Two values are the same, with their members in the same order. -/
def Value.same : Value → Value → Bool
  | .null, .null => true
  | .boolean a, .boolean b => a = b
  | .number m, .number n => m = n
  | .string s, .string t => s = t
  | .array vs, .array ws => sameItems vs ws
  | .object ms, .object ns => sameMembers ms ns
  | _, _ => false
termination_by structural v => v

/-- `Value.same` item by item. -/
def sameItems : List Value → List Value → Bool
  | [], [] => true
  | v :: vs, w :: ws => v.same w && sameItems vs ws
  | _, _ => false
termination_by structural vs => vs

/-- The same keys, and `Value.same` member by member. -/
def sameMembers : List (String × Value) → List (String × Value) → Bool
  | [], [] => true
  | (j, v) :: ms, (k, w) :: ns => decide (j = k) && v.same w && sameMembers ms ns
  | _, _ => false
termination_by structural ms => ms

end

theorem sameItems_iff {vs ws : List Value} (h : ∀ v ∈ vs, ∀ w, v.same w ↔ v = w) :
    sameItems vs ws ↔ vs = ws := by
  induction vs generalizing ws with
  | nil => cases ws <;> simp [sameItems]
  | cons v vs ih =>
    cases ws with
    | nil => simp [sameItems]
    | cons w ws =>
      rw [List.forall_mem_cons] at h
      rw [sameItems, Bool.and_eq_true, h.1, ih h.2, List.cons.injEq]

theorem sameMembers_iff {ms ns : List (String × Value)}
    (h : ∀ m ∈ ms, ∀ w, m.2.same w ↔ m.2 = w) : sameMembers ms ns ↔ ms = ns := by
  induction ms generalizing ns with
  | nil => cases ns <;> simp [sameMembers]
  | cons m ms ih =>
    cases ns with
    | nil => simp [sameMembers]
    | cons n ns =>
      obtain ⟨j, v⟩ := m
      obtain ⟨k, w⟩ := n
      rw [List.forall_mem_cons] at h
      rw [sameMembers, Bool.and_eq_true, Bool.and_eq_true, decide_eq_true_eq, h.1, ih h.2,
        List.cons.injEq, Prod.mk.injEq]

theorem Value.same_iff {v w : Value} : v.same w ↔ v = w := by
  induction v using Value.induction generalizing w with
  | null | boolean | number | string => cases w <;> simp [same]
  | array items ih =>
    cases w with
    | array items' => rw [same, sameItems_iff fun v hv w => ih v hv, array.injEq]
    | _ => simp [same]
  | object members ih =>
    cases w with
    | object members' => rw [same, sameMembers_iff fun m hm w => ih m hm, object.injEq]
    | _ => simp [same]

instance : DecidableEq Value := fun _ _ => decidable_of_iff _ Value.same_iff

/-! ## Members in order of their keys -/

/-- Puts a member where its key belongs; a member of the same key is replaced. -/
def insertMember (key : String) (value : Value) : List (String × Value) → List (String × Value)
  | [] => [(key, value)]
  | (k, v) :: rest =>
    if key < k then (key, value) :: (k, v) :: rest
    else if key = k then (key, value) :: rest
    else (k, v) :: insertMember key value rest

/-- Members in ascending order of their keys; of a repeated key the last. -/
def sortMembers (members : List (String × Value)) : List (String × Value) :=
  members.foldl (fun sorted (key, value) => insertMember key value sorted) []

mutual

/-- Every object with its members in ascending order of their keys. -/
def Value.sorted : Value → Value
  | .array items => .array (sortedItems items)
  | .object members => .object (sortMembers (sortedMembers members))
  | v => v
termination_by structural v => v

/-- `Value.sorted` of every item. -/
def sortedItems : List Value → List Value
  | [] => []
  | v :: vs => v.sorted :: sortedItems vs
termination_by structural vs => vs

/-- `Value.sorted` of every member's value. -/
def sortedMembers : List (String × Value) → List (String × Value)
  | [] => []
  | (key, v) :: ms => (key, v.sorted) :: sortedMembers ms
termination_by structural ms => ms

end

end VarLogic.Json
