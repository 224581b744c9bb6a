/-
A network settles the toggles of its nodes. The declarations of a formula
refer to the pairs of its leaves and to pairs declared before them, so on an
element where the leaves' pairs are settled and the network is declared, the
pair of every node is settled as the node evaluates (`settled_network`).
Nodes have names of their own: the base name and a path (`nodup_network`).
-/
import VarLogic.Network
import VarLogic.Proofs.Formula.ValueText

namespace VarLogic

/-! ## Names of properties -/

namespace Toggle

theorem toList_property (id : String) (on : Bool) :
    (property id on).toList = ('-' :: '-' :: id.toList) ++ ['-', if on then '1' else '0'] := by
  cases on <;> simp [property]

theorem property_inj {a b : String} {x y : Bool} :
    property a x = property b y ↔ a = b ∧ x = y := by
  refine ⟨fun h => ?_, fun ⟨ha, hx⟩ => by rw [ha, hx]⟩
  have hl := congrArg String.toList h
  rw [toList_property, toList_property] at hl
  obtain ⟨hid, hside⟩ := List.append_inj' hl rfl
  refine ⟨String.ext (by simpa using hid), ?_⟩
  cases x <;> cases y <;> simp at hside ⊢

theorem property_false_ne_true (id : String) : property id false ≠ property id true := fun h => by
  simp [property_inj] at h

end Toggle

namespace Formula

/-- The way from the root of a formula to a node. -/
def IsPath (path : String) : Prop := ∀ c ∈ path.toList, c = 'A' ∨ c = 'B' ∨ c = 'X'

theorem IsPath.append {p q : String} (hp : IsPath p) (hq : IsPath q) : IsPath (p ++ q) := by
  intro c hc
  rw [String.toList_append, List.mem_append] at hc
  exact hc.elim (hp c) (hq c)

theorem isPath_empty : IsPath "" := by simp [IsPath]

theorem isPath_step {step : String} (h : step = "A" ∨ step = "B" ∨ step = "X") : IsPath step := by
  rcases h with rfl | rfl | rfl <;> simp [IsPath]

/-- The properties a network declares are those of nodes below its base name. -/
theorem property_of_mem_network {f : Formula String} {id : String} {d : Declaration}
    (h : d ∈ f.network id) :
    ∃ path on, IsPath path ∧ d.property = Toggle.property (id ++ path) on := by
  induction f generalizing id with
  | leaf a => simp [network] at h
  | not f ih =>
    simp only [network, List.mem_append, List.mem_cons, List.not_mem_nil, or_false] at h
    rcases h with h | rfl | rfl
    · obtain ⟨path, on, hp, he⟩ := ih h
      exact ⟨"X" ++ path, on, (isPath_step (by simp)).append hp, by rw [he, String.append_assoc]⟩
    · exact ⟨"", false, isPath_empty, by simp⟩
    · exact ⟨"", true, isPath_empty, by simp⟩
  | and l r ihl ihr | or l r ihl ihr =>
    simp only [network, List.mem_append, List.mem_cons, List.not_mem_nil, or_false] at h
    rcases h with (h | h) | rfl | rfl
    · obtain ⟨path, on, hp, he⟩ := ihl h
      exact ⟨"A" ++ path, on, (isPath_step (by simp)).append hp, by rw [he, String.append_assoc]⟩
    · obtain ⟨path, on, hp, he⟩ := ihr h
      exact ⟨"B" ++ path, on, (isPath_step (by simp)).append hp, by rw [he, String.append_assoc]⟩
    · exact ⟨"", false, isPath_empty, by simp⟩
    · exact ⟨"", true, isPath_empty, by simp⟩

/-- The root of a network has a name of its own. -/
theorem property_not_mem_network (f : Formula String) (id : String) {step : String}
    (hs : step ≠ "") (on : Bool) :
    Toggle.property id on ∉ (f.network (id ++ step)).map (·.property) := by
  intro h
  obtain ⟨d, hd, he⟩ := List.mem_map.1 h
  obtain ⟨path, on', -, hp⟩ := property_of_mem_network hd
  have hid := (Toggle.property_inj.1 (he.symm.trans hp)).1
  have hl := congrArg (fun s => s.toList.length) hid
  have : 0 < step.toList.length := List.length_pos_iff.2 (by simpa using hs)
  simp only [String.toList_append, List.length_append] at hl
  omega

/-- Nodes on different sides have different names. -/
theorem disjoint_network (l r : Formula String) (id : String) :
    ∀ p ∈ (l.network (id ++ "A")).map (·.property), p ∉ (r.network (id ++ "B")).map (·.property) := by
  intro p hp hq
  obtain ⟨d, hd, rfl⟩ := List.mem_map.1 hp
  obtain ⟨d', hd', he⟩ := List.mem_map.1 hq
  obtain ⟨path, on, -, hp⟩ := property_of_mem_network hd
  obtain ⟨path', on', -, hp'⟩ := property_of_mem_network hd'
  have hid := (Toggle.property_inj.1 (hp.symm.trans (he.symm.trans hp'))).1
  have hl := congrArg String.toList hid
  simp at hl

/-- No property is declared twice. -/
theorem nodup_network (f : Formula String) (id : String) :
    ((f.network id).map (·.property)).Nodup := by
  induction f generalizing id with
  | leaf a => simp [network]
  | not f ih =>
    have hr : ∀ on, _ ∉ (f.network (id ++ "X")).map _ := property_not_mem_network f id (by simp)
    simp only [network, List.map_append, List.map_cons, List.map_nil]
    rw [List.nodup_append]
    refine ⟨ih _, by simp [Toggle.property_false_ne_true], ?_⟩
    intro p hp q hq he
    simp only [List.mem_cons, List.not_mem_nil, or_false] at hq
    rcases hq with rfl | rfl
    · exact hr false (he ▸ hp)
    · exact hr true (he ▸ hp)
  | and l r ihl ihr | or l r ihl ihr =>
    have hl : ∀ on, _ ∉ (l.network (id ++ "A")).map _ := property_not_mem_network l id (by simp)
    have hr : ∀ on, _ ∉ (r.network (id ++ "B")).map _ := property_not_mem_network r id (by simp)
    simp only [network, List.map_append, List.map_cons, List.map_nil]
    rw [List.nodup_append, List.nodup_append]
    refine ⟨⟨ihl _, ihr _, fun p hp q hq he => disjoint_network l r id p hp (he ▸ hq)⟩,
      by simp [Toggle.property_false_ne_true], ?_⟩
    intro p hp q hq he
    simp only [List.mem_cons, List.not_mem_nil, or_false] at hq
    rw [List.mem_append] at hp
    rcases hq with rfl | rfl
    · exact hp.elim (fun h => hl false (he ▸ h)) (fun h => hr false (he ▸ h))
    · exact hp.elim (fun h => hl true (he ▸ h)) (fun h => hr true (he ▸ h))

end Formula

/-! ## Values of declarations -/

namespace Element

variable {e : Element} {pending : List String}

/-- There is a blank value if `valid`, and none otherwise. -/
def BlankIf (valid : Bool) (value : Option (List Char)) : Prop :=
  match valid with
  | true => ∃ cs, value = some cs ∧ Blank cs
  | false => value = none

theorem decides_iff {id : String} {on : Bool} :
    e.Decides pending id on ↔
      ∀ side, BlankIf (side != on) (e.computed? pending (Toggle.property id side)) := by
  cases on <;> simp [Decides, BlankIf, and_comm]

open Toggle (reference referenceOr property isPlain_property)

theorem substitute?_toList_reference {a : String} (ha : IsPlain a) (x : Bool) (rest : List Char) :
    e.substitute? pending ((reference a x).toList ++ rest) =
      (e.computed? pending (property a x)).bind fun value =>
        (e.substitute? pending rest).map fun rest => value ++ rest := by
  rw [Toggle.toList_reference]
  simpa using substitute?_reference (isPlain_property ha x) rest

theorem blankIf_reference {a : String} {x u : Bool} (ha : IsPlain a)
    (hu : BlankIf u (e.computed? pending (property a x))) :
    BlankIf u (e.substitute? pending (reference a x).toList) := by
  rw [← List.append_nil (reference a x).toList, substitute?_toList_reference ha, substitute?_nil]
  cases u with
  | true =>
    obtain ⟨v, hv, hb⟩ := hu
    exact ⟨v, by simp [hv], hb⟩
  | false =>
    have hu : e.computed? pending (property a x) = none := hu
    simp [BlankIf, hu]

/-- Two references have a value together if both have one. -/
theorem blankIf_both {a b : String} {x y u v : Bool} (ha : IsPlain a) (hb : IsPlain b)
    (hu : BlankIf u (e.computed? pending (property a x)))
    (hv : BlankIf v (e.computed? pending (property b y))) :
    BlankIf (u && v) (e.substitute? pending (reference a x ++ " " ++ reference b y).toList) := by
  have htext : (reference a x ++ " " ++ reference b y).toList =
      (reference a x).toList ++ ' ' :: (reference b y).toList := by simp
  have hr := blankIf_reference hb hv
  rw [htext, substitute?_toList_reference ha, substitute?_cons (by decide)]
  cases u with
  | false =>
    have hu : e.computed? pending (property a x) = none := hu
    simp [BlankIf, hu]
  | true =>
    obtain ⟨w, hw, hwb⟩ := hu
    cases v with
    | false =>
      have hr : e.substitute? pending (reference b y).toList = none := hr
      simp [BlankIf, hr]
    | true =>
      obtain ⟨w', hw', hwb'⟩ := hr
      refine ⟨w ++ ' ' :: w', by simp [hw, hw'], fun c hc => ?_⟩
      exact (List.mem_append.1 hc).elim (hwb c) (blank_cons hwb' c)

/-- A reference that falls back to another has a value if either has one. -/
theorem blankIf_either {a b : String} {x y u v : Bool} (ha : IsPlain a) (hb : IsPlain b)
    (hu : BlankIf u (e.computed? pending (property a x)))
    (hv : BlankIf v (e.computed? pending (property b y))) :
    BlankIf (u || v) (e.substitute? pending (referenceOr a x (reference b y)).toList) := by
  have hr := blankIf_reference hb hv
  have hbal : Balanced (' ' :: (reference b y).toList) :=
    .cons (by decide) (by decide) (Toggle.balanced_reference hb y)
  rw [Toggle.toList_referenceOr, substitute?_referenceOr (isPlain_property ha x).isName hbal,
    substitute?_cons (by decide), substitute?_nil]
  cases u with
  | true =>
    obtain ⟨w, hw, hwb⟩ := hu
    exact ⟨w, by simp [hw], hwb⟩
  | false =>
    have hu : e.computed? pending (property a x) = none := hu
    cases v with
    | false =>
      have hr : e.substitute? pending (reference b y).toList = none := hr
      simp [BlankIf, hu, hr]
    | true =>
      obtain ⟨w, hw, hwb⟩ := hr
      exact ⟨' ' :: w, by simp [hu, hw], blank_cons hwb⟩

/-! The two texts of a node, given the toggles they refer to. -/

variable {a b : String} {u v : Bool}

theorem blankIf_not (ha : IsPlain a) (hu : e.Decides pending a u) :
    BlankIf (!u) (e.substitute? pending (reference a true).toList) ∧
      BlankIf (!!u) (e.substitute? pending (reference a false).toList) := by
  have hu := decides_iff.1 hu
  refine ⟨blankIf_reference ha ?_, blankIf_reference ha ?_⟩
  · simpa using hu true
  · simpa using hu false

theorem blankIf_and (ha : IsPlain a) (hb : IsPlain b) (hu : e.Decides pending a u)
    (hv : e.Decides pending b v) :
    BlankIf (u && v)
        (e.substitute? pending (reference a false ++ " " ++ reference b false).toList) ∧
      BlankIf (!(u && v))
        (e.substitute? pending (referenceOr a true (reference b true)).toList) := by
  have hu := decides_iff.1 hu
  have hv := decides_iff.1 hv
  rw [Bool.not_and]
  refine ⟨blankIf_both ha hb ?_ ?_, blankIf_either ha hb ?_ ?_⟩
  · simpa using hu false
  · simpa using hv false
  · simpa using hu true
  · simpa using hv true

theorem blankIf_or (ha : IsPlain a) (hb : IsPlain b) (hu : e.Decides pending a u)
    (hv : e.Decides pending b v) :
    BlankIf (u || v)
        (e.substitute? pending (referenceOr a false (reference b false)).toList) ∧
      BlankIf (!(u || v))
        (e.substitute? pending (reference a true ++ " " ++ reference b true).toList) := by
  have hu := decides_iff.1 hu
  have hv := decides_iff.1 hv
  rw [Bool.not_or]
  refine ⟨blankIf_either ha hb ?_ ?_, blankIf_both ha hb ?_ ?_⟩
  · simpa using hu false
  · simpa using hv false
  · simpa using hu true
  · simpa using hv true

/-! The declarations of a node. -/

theorem head?_trim {c : Char} (hc : Text.isBlank c = false) (cs : List Char) :
    (trim (c :: cs)).head? = some c := by
  rw [trim, List.dropWhile_cons_of_neg (by simp [hc]), List.reverse_cons, List.dropWhile_append]
  split <;> simp [hc]

theorem isInitial_reference_append (a : String) (x : Bool) (rest : String) :
    isInitial (reference a x ++ rest) = false := by
  have h := head?_trim (by decide : Text.isBlank 'v' = false)
    ('a' :: 'r' :: '(' :: ((property a x).toList ++ ')' :: rest.toList))
  simp only [isInitial, String.toList_append, Toggle.toList_reference, beq_eq_false_iff_ne, ne_eq,
    List.cons_append, List.append_assoc, List.nil_append]
  intro he
  rw [he] at h
  exact absurd h (by decide)

theorem isInitial_reference (a : String) (x : Bool) : isInitial (reference a x) = false := by
  simpa using isInitial_reference_append a x ""

theorem isInitial_referenceOr (a : String) (x : Bool) (fallback : String) :
    isInitial (referenceOr a x fallback) = false := by
  have h := head?_trim (by decide : Text.isBlank 'v' = false)
    ('a' :: 'r' :: '(' :: ((property a x).toList ++ ',' :: ((' ' :: fallback.toList) ++ ')' :: [])))
  simp only [isInitial, Toggle.toList_referenceOr, beq_eq_false_iff_ne, ne_eq]
  intro he
  rw [he] at h
  exact absurd h (by decide)

theorem blankIf_declared {name raw : String} {u : Bool} (hp : name ∉ pending)
    (hl : e.declared.lookup name = some raw) (hi : isInitial raw = false)
    (h : BlankIf u (e.substitute? (name :: pending) raw.toList)) :
    BlankIf u (e.computed? pending name) := by
  rwa [computed?_of_declared hp hl hi]

/-! ## Settled toggles -/

/-- A toggle whose pair depends on the properties `names` only: it is decided
while others are worked out. -/
def Settled (e : Element) (names : List String) (id : String) (on : Bool) : Prop :=
  ∀ pending, (∀ p ∈ names, p ∉ pending) → e.Decides pending id on

theorem Settled.mono {names names' : List String} {id : String} {on : Bool}
    (h : e.Settled names id on) (hs : ∀ p ∈ names, p ∈ names') : e.Settled names' id on :=
  fun pending hp => h pending fun p hn => hp p (hs p hn)

theorem Settled.state_eq {names : List String} {id : String} {on : Bool}
    (h : e.Settled names id on) : e.state id = on :=
  Decides.state_eq (h [] (by simp))

theorem Settled.toggle? {names : List String} {id : String} {on : Bool}
    (h : e.Settled names id on) : e.toggle? id = some on :=
  Decides.toggle? (h [] (by simp))

/-- A pair with one side `initial` and the other empty is settled. -/
theorem settled_pair {id : String} {on : Bool}
    (hlost : e.declared.lookup (property id on) = some "initial")
    (hkept : e.declared.lookup (property id !on) = some "") :
    e.Settled [property id false, property id true] id on := by
  intro pending hp
  have hfree : property id (!on) ∉ pending := hp _ (by cases on <;> simp)
  refine ⟨computed?_of_initial hlost (by decide), [], ?_, by simp [Blank]⟩
  rw [computed?_of_declared hfree hkept (by decide)]
  exact substitute?_nil

/-- A node whose two declarations refer to settled toggles is settled. -/
theorem settled_node {names : List String} {below : List Declaration} {id off on : String}
    {value : Bool}
    (hl : ∀ d ∈ below ++ [.mk (property id false) off, .mk (property id true) on],
      e.declared.lookup d.property = some d.value)
    (hn : ∀ d ∈ below ++ [.mk (property id false) off, .mk (property id true) on], d.property ∉ names)
    (hroot : ∀ side, property id side ∉ below.map (·.property))
    (hoff : isInitial off = false) (hon : isInitial on = false)
    (h : ∀ pending, (∀ p ∈ names ++ below.map (·.property), p ∉ pending) →
      BlankIf value (e.substitute? pending off.toList) ∧
        BlankIf (!value) (e.substitute? pending on.toList)) :
    e.Settled (names ++ (below ++ [Declaration.mk (property id false) off,
      Declaration.mk (property id true) on]).map (·.property)) id value := by
  intro pending hp
  have hfree : ∀ side, property id side ∉ names := fun side => by
    cases side with
    | false => exact hn ⟨property id false, off⟩ (by simp)
    | true => exact hn ⟨property id true, on⟩ (by simp)
  -- While one side of the pair is worked out, what it refers to is still free.
  have hpending : ∀ side, ∀ p ∈ names ++ below.map (·.property),
      p ∉ property id side :: pending := fun side p hm hmem => by
    rw [List.mem_cons] at hmem
    rw [List.mem_append] at hm
    rcases hmem with rfl | hmem
    · exact hm.elim (hfree side) (hroot side)
    · refine hp p ?_ hmem
      rw [List.map_append, List.mem_append, List.mem_append]
      exact hm.imp_right .inl
  rw [decides_iff]
  intro side
  cases side with
  | false =>
    have := (h _ (hpending false)).1
    simpa using blankIf_declared (hp _ (by simp)) (hl ⟨property id false, off⟩ (by simp)) hoff this
  | true =>
    have := (h _ (hpending true)).2
    simpa using blankIf_declared (hp _ (by simp)) (hl ⟨property id true, on⟩ (by simp)) hon this

end Element

namespace Formula

open Element (Settled IsPlain BlankIf)

variable {e : Element} {names : List String} {holds : String → Bool}

theorem isPlain_toggle {f : Formula String} {id : String} (hid : IsPlain id)
    (hp : ∀ a ∈ f.leaves, IsPlain a) : IsPlain (f.toggle id) := by
  cases f with
  | leaf a => exact hp a (by simp [leaves])
  | _ => exact hid

theorem isPlain_step {id step : String} (hid : IsPlain id) (hs : IsPlain step) :
    IsPlain (id ++ step) := by
  intro c hc
  rw [String.toList_append, List.mem_append] at hc
  exact hc.elim (hid c) (hs c)

/-- A path down from a base name, one step longer. -/
theorem isPlain_below {id : String} (hid : IsPlain id) :
    IsPlain (id ++ "A") ∧ IsPlain (id ++ "B") ∧ IsPlain (id ++ "X") :=
  ⟨isPlain_step hid (by simp [IsPlain, Text.isBlank]),
    isPlain_step hid (by simp [IsPlain, Text.isBlank]),
    isPlain_step hid (by simp [IsPlain, Text.isBlank])⟩

/-- A node with two sides is settled if both are. -/
theorem settled_sides {l r : Formula String} {id x y off on : String} {u v value : Bool}
    (hl : ∀ d ∈ l.network (id ++ "A") ++ r.network (id ++ "B") ++
      [⟨Toggle.property id false, off⟩, ⟨Toggle.property id true, on⟩],
      e.declared.lookup d.property = some d.value)
    (hn : ∀ d ∈ l.network (id ++ "A") ++ r.network (id ++ "B") ++
      [⟨Toggle.property id false, off⟩, ⟨Toggle.property id true, on⟩], d.property ∉ names)
    (hx : (∀ d ∈ l.network (id ++ "A"), e.declared.lookup d.property = some d.value) →
      (∀ d ∈ l.network (id ++ "A"), d.property ∉ names) →
      e.Settled (names ++ (l.network (id ++ "A")).map (·.property)) x u)
    (hy : (∀ d ∈ r.network (id ++ "B"), e.declared.lookup d.property = some d.value) →
      (∀ d ∈ r.network (id ++ "B"), d.property ∉ names) →
      e.Settled (names ++ (r.network (id ++ "B")).map (·.property)) y v)
    (hoff : Element.isInitial off = false) (hon : Element.isInitial on = false)
    (h : ∀ {pending}, e.Decides pending x u → e.Decides pending y v →
      BlankIf value (e.substitute? pending off.toList) ∧
        BlankIf (!value) (e.substitute? pending on.toList)) :
    e.Settled (names ++ (l.network (id ++ "A") ++ r.network (id ++ "B") ++
      [Declaration.mk (Toggle.property id false) off, .mk (Toggle.property id true) on]).map (·.property)) id value := by
  have hx := hx (fun d hd => hl d (by simp [hd])) fun d hd => hn d (by simp [hd])
  have hy := hy (fun d hd => hl d (by simp [hd])) fun d hd => hn d (by simp [hd])
  have hroot : ∀ side, Toggle.property id side ∉
      (l.network (id ++ "A") ++ r.network (id ++ "B")).map (·.property) := fun side hm => by
    rw [List.map_append, List.mem_append] at hm
    exact hm.elim (property_not_mem_network l id (by simp) side)
      (property_not_mem_network r id (by simp) side)
  refine Element.settled_node hl hn hroot hoff hon fun pending hpend => ?_
  simp only [List.map_append, List.mem_append] at hpend
  have hdx := hx pending fun p hm => hpend p ((List.mem_append.1 hm).imp_right .inl)
  have hdy := hy pending fun p hm => hpend p ((List.mem_append.1 hm).imp_right .inr)
  exact h hdx hdy

/-- **The network of a formula settles its toggle**, given the toggles of its
leaves and that no property it declares is one of theirs. -/
theorem settled_network {f : Formula String} {id : String} (hid : IsPlain id)
    (hp : ∀ a ∈ f.leaves, IsPlain a) (hs : ∀ a ∈ f.leaves, e.Settled names a (holds a))
    (hl : ∀ d ∈ f.network id, e.declared.lookup d.property = some d.value)
    (hn : ∀ d ∈ f.network id, d.property ∉ names) :
    e.Settled (names ++ (f.network id).map (·.property)) (f.toggle id) (f.eval holds) := by
  induction f generalizing id with
  | leaf a => simpa [network, toggle, eval] using hs a (by simp [leaves])
  | not f ih =>
    obtain ⟨-, -, hx⟩ := isPlain_below hid
    rw [network] at hl hn ⊢
    have hf := ih hx hp hs (fun d hd => hl d (List.mem_append_left _ hd))
      (fun d hd => hn d (List.mem_append_left _ hd))
    have hplain : IsPlain (f.toggle (id ++ "X")) := isPlain_toggle hx hp
    have hroot : ∀ side, Toggle.property id side ∉ (f.network (id ++ "X")).map (·.property) :=
      property_not_mem_network f id (by simp)
    change e.Settled _ id (!f.eval holds)
    apply Element.settled_node hl hn hroot
    · exact Element.isInitial_reference _ _
    · exact Element.isInitial_reference _ _
    · exact fun pending hpend => Element.blankIf_not hplain (hf pending hpend)
  | and l r ihl ihr =>
    obtain ⟨ha, hb, -⟩ := isPlain_below hid
    have hpl : ∀ a ∈ l.leaves, IsPlain a := fun a h => hp a (by simp [leaves, h])
    have hpr : ∀ a ∈ r.leaves, IsPlain a := fun a h => hp a (by simp [leaves, h])
    have hsl := ihl ha hpl fun a h => hs a (by simp [leaves, h])
    have hsr := ihr hb hpr fun a h => hs a (by simp [leaves, h])
    rw [network] at hl hn ⊢
    change e.Settled _ id (l.eval holds && r.eval holds)
    apply settled_sides hl hn hsl hsr
    · rw [String.append_assoc]
      exact Element.isInitial_reference_append _ _ _
    · exact Element.isInitial_referenceOr _ _ _
    · exact Element.blankIf_and (isPlain_toggle ha hpl) (isPlain_toggle hb hpr)
  | or l r ihl ihr =>
    obtain ⟨ha, hb, -⟩ := isPlain_below hid
    have hpl : ∀ a ∈ l.leaves, IsPlain a := fun a h => hp a (by simp [leaves, h])
    have hpr : ∀ a ∈ r.leaves, IsPlain a := fun a h => hp a (by simp [leaves, h])
    have hsl := ihl ha hpl fun a h => hs a (by simp [leaves, h])
    have hsr := ihr hb hpr fun a h => hs a (by simp [leaves, h])
    rw [network] at hl hn ⊢
    change e.Settled _ id (l.eval holds || r.eval holds)
    apply settled_sides hl hn hsl hsr
    · exact Element.isInitial_referenceOr _ _ _
    · rw [String.append_assoc]
      exact Element.isInitial_reference_append _ _ _
    · exact Element.blankIf_or (isPlain_toggle ha hpl) (isPlain_toggle hb hpr)

end Formula

end VarLogic
