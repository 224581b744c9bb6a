/-
Documents of definitions, entry by entry. A document is read in the order in
which it is written, and stops being read at its first misfit; a single condition
is read from a value that was parsed before, with its members in order. Where
nothing is repeated this is the same: a document with definitions and nothing
else is accepted if each of its entries is, and then gives the condition of every
entry in the order of the document (`ofJson_entries`). So does going over its
characters once (`scan?_eq`).
-/
import VarLogic.Proofs.Condition.Parsed
import VarLogic.Proofs.Condition.Scan
import VarLogic.Proofs.Json.Trees
import VarLogic.Settings
import Mathlib.Data.List.Forall2

namespace VarLogic

open Json (Value Raw)

theorem toOption_eq_some {ε α : Type} {x : Except ε α} {a : α} :
    x.toOption = some a ↔ x = .ok a := by
  cases x <;> simp [Except.toOption]

/-! ## Members -/

namespace Definitions

/-- A definition has the name of a member, and the condition that the member's
value is by itself. -/
def IsEntry (m : String × Value) (d : String × Condition String) : Prop :=
  d.1 = m.1 ∧ Condition.ofParsed m.2 = .ok d.2

theorem toOption_ofMembers_cons (m : String × Value) (members : List (String × Value)) :
    (ofMembers (m :: members)).toOption = (Condition.ofValue m.2).toOption.bind fun c =>
      (ofMembers members).toOption.map ((m.1, c) :: ·) := by
  rw [ofMembers]
  cases Condition.ofValue m.2 with
  | error why => rfl
  | ok c => cases ofMembers members <;> rfl

theorem ofMembers_cons {m : String × Value} {members : List (String × Value)}
    {definitions : Definitions} :
    ofMembers (m :: members) = .ok definitions ↔
      ∃ c rest, Condition.ofValue m.2 = .ok c ∧ ofMembers members = .ok rest ∧
        definitions = (m.1, c) :: rest := by
  rw [← toOption_eq_some, toOption_ofMembers_cons]
  simp only [Option.bind_eq_some_iff, Option.map_eq_some_iff, toOption_eq_some, exists_and_left,
    @eq_comm _ definitions]

/-- **Definitions are read member by member**, each like a condition by itself. -/
theorem ofMembers_eq_ok {members : List (String × Value)}
    (hd : ∀ m ∈ members, m.2.KeysDistinct) {definitions : Definitions} :
    ofMembers members = .ok definitions ↔ List.Forall₂ IsEntry members definitions := by
  induction members generalizing definitions with
  | nil =>
    rw [List.forall₂_nil_left_iff]
    simp [ofMembers, pure, Except.pure, eq_comm]
  | cons m members ih =>
    have hm : m.2.KeysDistinct := hd m (by simp)
    have hread : ∀ c, Condition.ofParsed m.2 = .ok c ↔ Condition.ofValue m.2 = .ok c :=
      fun c => Condition.ofParsed_eq_ok_iff_ofValue hm
    rw [ofMembers_cons, List.forall₂_cons_left_iff]
    constructor
    · intro h
      obtain ⟨c, rest, hc, hrest, rfl⟩ := h
      exact ⟨(m.1, c), rest, ⟨rfl, (hread c).2 hc⟩,
        (ih fun n hn => hd n (by simp [hn])).1 hrest, rfl⟩
    · intro h
      obtain ⟨⟨name, c⟩, rest, ⟨rfl, hc⟩, hrest, rfl⟩ := h
      exact ⟨c, rest, (hread c).1 hc, (ih fun n hn => hd n (by simp [hn])).2 hrest, rfl⟩

/-- There are definitions for members if each of them has a condition. -/
theorem exists_isEntry {members : List (String × Value)} :
    (∃ definitions, List.Forall₂ IsEntry members definitions) ↔
      ∀ m ∈ members, ∃ c, Condition.ofParsed m.2 = .ok c := by
  induction members with
  | nil => simp
  | cons m members ih =>
    rw [List.forall_mem_cons, ← ih]
    constructor
    · intro h
      obtain ⟨definitions, h⟩ := h
      obtain ⟨d, rest, hd, hrest, -⟩ := List.forall₂_cons_left_iff.1 h
      exact ⟨⟨d.2, hd.2⟩, rest, hrest⟩
    · intro h
      obtain ⟨⟨c, hc⟩, rest, hrest⟩ := h
      exact ⟨(m.1, c) :: rest, .cons ⟨rfl, hc⟩ hrest⟩

/-! ## Scanning -/

theorem scanEntries?_eq {fuel fuel' depth : Nat} {cs r : List Char}
    {trees : List (Option String × Raw)} {members : List (String × Value)} (hfuel : fuel ≤ fuel')
    (hread : Json.rawMembers? fuel cs = some (trees, r))
    (hvalues : Json.memberValues? depth trees = some members) :
    scanEntries? fuel' depth cs = (ofMembers members).toOption.map (·, r) := by
  induction fuel generalizing fuel' cs trees members with
  | zero => cases hread
  | succ fuel ih =>
    obtain ⟨fuel', rfl⟩ := Nat.exists_eq_add_of_le' (show 1 ≤ fuel' by omega)
    obtain ⟨name, rest, tree, v, rest', hkey, htree, hv, hend⟩ :=
      Json.rawMembers?_eq_some hread hvalues
    have hscan : Condition.scan? fuel' depth rest = _ :=
      (Condition.scans fuel).1 (by omega) htree hv
    rw [scanEntries?]
    simp only [hkey, hscan, Option.bind_eq_bind, Option.bind_some]
    rcases hend with ⟨hskip, rfl⟩ | ⟨back, trees', members', hskip, htrees, hmembers, rfl⟩
    · rw [toOption_ofMembers_cons]
      cases (Condition.ofValue v).toOption with
      | none => rfl
      | some c => simp [hskip, ofMembers, Except.toOption, pure, Except.pure]
    · have hmore := ih (show fuel ≤ fuel' by omega) htrees hmembers
      rw [toOption_ofMembers_cons]
      cases (Condition.ofValue v).toOption with
      | none => rfl
      | some c => cases hof : (ofMembers members').toOption <;> simp [hskip, hmore, hof]

/-- **Scanning a text finds the definitions of its value.** -/
theorem scan?_eq {text : String} {members : List (String × Value)}
    (ht : Value.ofText? text = some (.object [("conditions", .object members)])) :
    scan? text = (ofMembers members).toOption := by
  simp only [Value.ofText?, Raw.ofText?, Option.bind_eq_bind, Option.bind_eq_some_iff,
    Option.ite_none_right_eq_some, Option.some.injEq, Prod.exists] at ht
  obtain ⟨_, ⟨tree, r, hread, hr, rfl⟩, hvalue⟩ := ht
  -- The text is an object, and its one field is an object.
  obtain ⟨_, hfuel, hstart⟩ := Json.read_of_raw? hread hvalue
  cases hstart with
  | scalar _ _ _ hobject => exact absurd rfl (hobject _)
  | members hskip _ htrees hfields =>
    obtain rfl := Nat.succ.inj hfuel
    obtain ⟨field, behind, tree', v, rest, hkey, hread', hvalue', hend⟩ :=
      Json.rawMembers?_eq_some htrees hfields
    rcases hend with ⟨hclose, hfield⟩ | ⟨_, _, _, -, htrees', hms', hfield⟩
    · obtain ⟨hpair, -⟩ := List.cons.inj hfield
      obtain ⟨rfl, rfl⟩ := Prod.mk.inj hpair
      obtain ⟨_, hfuel, hstart'⟩ := Json.read_of_raw? hread' hvalue'
      rw [Json.key?_skip] at hkey
      rw [scan?]
      simp only [Json.expect?_eq hskip, hkey, if_pos, Option.bind_eq_bind, Option.bind_some]
      cases hstart' with
      | scalar _ _ _ hobject => exact absurd rfl (hobject _)
      | noMembers hskip' hempty =>
        simp [Json.expect?_eq hskip', hempty, Json.expect?_eq hclose, hr, ofMembers,
          Except.toOption, pure, Except.pure]
      | members hskip' hfirst htrees' hmembers =>
        have hentries : scanEntries? (2 * text.toList.length + 2) (Json.maxDepth - 2) _ = _ :=
          scanEntries?_eq (by omega) htrees' hmembers
        simp only [Json.expect?_eq hskip', Option.bind_some, hentries]
        cases (ofMembers members).toOption with
        | none => rfl
        | some definitions => simp [Json.expect?_eq hclose, hr]
    · obtain ⟨m, ms, rfl⟩ := Json.exists_cons_of_rawMembers? htrees' hms'
      cases hfield

end Definitions

/-! ## Documents -/

namespace Settings

theorem ofJson_conditions {text : String} {members : List (String × Value)}
    (ht : Value.ofText? text = some (.object [("conditions", .object members)]))
    {settings : Settings} :
    ofJson text = .ok settings ↔
      ∃ definitions, Definitions.ofMembers members = .ok definitions ∧
        settings = { layout := .compact, definitions } := by
  simp only [Value.ofText?, Option.bind_eq_bind, Option.bind_eq_some_iff] at ht
  obtain ⟨tree, htree, hvalue⟩ := ht
  obtain ⟨t, rfl⟩ := Json.tree_of_single hvalue
  have hskim : skim (.object [(some "conditions", t)]) = .object [(some "conditions", t)] := rfl
  have hdecode : ofValue .json (.object [("conditions", .object members)]) =
      (Definitions.ofMembers members).map fun definitions => { layout := .compact, definitions } := by
    simp only [ofValue, List.foldlM_cons, List.foldlM_nil, Fields.member, Decode.once,
      Definitions.ofValue]
    cases Definitions.ofMembers members <;> rfl
  rw [ofJson, readJson, htree]
  simp only [hskim, hvalue, hdecode]
  cases Definitions.ofMembers members with
  | error why => simp [Except.map]
  | ok definitions => simp [Except.map, eq_comm]

/-- **A document is read like its entries.** Let a text be well formed, its value
definitions and nothing else, and no object in it repeat a key. However it is
spelled and nested, it is accepted exactly if the value of every entry is a
condition by itself; and then its definitions are the entries in the order of the
text, each with that condition. Scanning the text without keeping any value finds
these definitions, and none where the text is not accepted. -/
theorem ofJson_entries {text : String} {entries : List (String × Value)}
    (ht : Value.ofText? text = some (.object [("conditions", .object entries)]))
    (hd : (Value.object [("conditions", .object entries)]).KeysDistinct) :
    ((∃ settings, ofJson text = .ok settings) ↔
        ∀ entry ∈ entries, ∃ c, Condition.ofParsed entry.2 = .ok c) ∧
      (∀ settings, ofJson text = .ok settings ↔
        settings.layout = .compact ∧
          List.Forall₂ Definitions.IsEntry entries settings.definitions) ∧
      ∀ definitions, Definitions.scan? text = some definitions ↔
        List.Forall₂ Definitions.IsEntry entries definitions := by
  have hconditions : (Value.object entries).KeysDistinct :=
    (Value.keysDistinct_object.1 hd).2 ("conditions", .object entries) (by simp)
  have hentries := (Value.keysDistinct_object.1 hconditions).2
  have hread : ∀ settings, ofJson text = .ok settings ↔ settings.layout = .compact ∧
      List.Forall₂ Definitions.IsEntry entries settings.definitions := by
    intro settings
    rw [ofJson_conditions ht, ← Definitions.ofMembers_eq_ok hentries]
    constructor
    · intro h
      obtain ⟨definitions, h, rfl⟩ := h
      exact ⟨rfl, h⟩
    · intro h
      exact ⟨settings.definitions, h.2, by rw [← h.1]⟩
  refine ⟨?_, hread, ?_⟩
  · rw [← Definitions.exists_isEntry]
    constructor
    · intro h
      obtain ⟨settings, h⟩ := h
      exact ⟨settings.definitions, ((hread settings).1 h).2⟩
    · intro h
      obtain ⟨definitions, h⟩ := h
      exact ⟨{ layout := .compact, definitions }, (hread _).2 ⟨rfl, h⟩⟩
  · intro definitions
    rw [Definitions.scan?_eq ht, toOption_eq_some, Definitions.ofMembers_eq_ok hentries]

/-- Escapes in keys and texts, blanks of all kinds, and names out of order. -/
def spelledText : String :=
  "\n\x7b\"c\\u006fnditions\" :\t\x7b \"not\": \x7b\"n\\u006ft\": \"\\u0026:hover\"\x7d , \"b\": \x7b \"or\":[ ]\x7d,\"a\":\"b\\/\"\x7d\x7d\r"

def spelledEntries : List (String × Value) :=
  [("not", .object [("not", .string "&:hover")]), ("b", .object [("or", .array [])]),
    ("a", .string "b/")]

theorem keysDistinct_spelledEntries :
    (Value.object [("conditions", .object spelledEntries)]).KeysDistinct := by
  simp [Value.keysDistinct_object, spelledEntries, Value.KeysDistinct.string, Value.keysDistinct_array]

theorem ofJson_entries_spelled :
    ofJson spelledText = .ok { layout := .compact, definitions :=
      [("not", .not (.leaf "&:hover")), ("b", .or []), ("a", .leaf "b/")] } := by
  have htext : Value.ofText? spelledText =
      some (.object [("conditions", .object spelledEntries)]) := by decide +kernel
  exact ((ofJson_entries htext keysDistinct_spelledEntries).2.1 _).2
    ⟨rfl, .cons ⟨rfl, rfl⟩ (.cons ⟨rfl, rfl⟩ (.cons ⟨rfl, rfl⟩ .nil))⟩

end Settings

end VarLogic
