/-
The nodes of a network. Every composite node of a formula owns a pair, and these
pairs are what the network declares (`properties_network`). The network of a
node is part of the one it stands in (`of_mem_nodes`), so what settles the root
settles every node (`settled_nodes`); and a node comes after its children, so
what it refers to are pairs of leaves, or pairs declared before it
(`refersTo_network`). For the network of a condition, declared on an element
that has the pairs of its leaves, that is all there is to show
(`Network.ofCondition?_correct`).
-/
import VarLogic.Proofs.Condition.Leaves
import VarLogic.Proofs.Element.Declared
import VarLogic.Proofs.Element.References

namespace VarLogic

open Element (IsPlain)

/-! ## Composite nodes -/

/-- Both properties of a toggle. -/
def Toggle.pair (id : String) : List String := [property id false, property id true]

namespace Formula

/-- The ids of the composite nodes of a formula whose root is named `id`,
children before parents. -/
def composites : Formula String → String → List String
  | .leaf _, _ => []
  | .not f, id => f.composites (id ++ "X") ++ [id]
  | .and l r, id | .or l r, id => l.composites (id ++ "A") ++ r.composites (id ++ "B") ++ [id]

/-- A network declares the pairs of the composite nodes, and nothing else. -/
theorem properties_network (f : Formula String) (id : String) :
    (f.network id).map (·.property) = (f.composites id).flatMap Toggle.pair := by
  induction f generalizing id with
  | leaf a => rfl
  | not f ih => simp [network, composites, ih, Toggle.pair]
  | and l r ihl ihr | or l r ihl ihr => simp [network, composites, ihl, ihr, Toggle.pair]

/-- The root of a formula with a composite node is named after its base. -/
theorem composites_toggle (f : Formula String) (base : String) :
    f.composites (f.toggle base) = f.composites base := by
  cases f <;> rfl

/-- The composite nodes with the formulas they stand for. -/
def nodes : Formula String → String → List (String × Formula String)
  | .leaf _, _ => []
  | .not f, id => f.nodes (id ++ "X") ++ [(id, .not f)]
  | .and l r, id => l.nodes (id ++ "A") ++ r.nodes (id ++ "B") ++ [(id, .and l r)]
  | .or l r, id => l.nodes (id ++ "A") ++ r.nodes (id ++ "B") ++ [(id, .or l r)]

theorem map_nodes (f : Formula String) (id : String) : (f.nodes id).map (·.1) = f.composites id := by
  induction f generalizing id with
  | leaf a => rfl
  | not f ih => simp [nodes, composites, ih]
  | and l r ihl ihr | or l r ihl ihr => simp [nodes, composites, ihl, ihr]

/-- A node is the root of a network that is part of the whole one. -/
structure NodeOf (f : Formula String) (id : String) (node : String × Formula String) : Prop where
  named : ∃ path, IsPath path ∧ node.1 = id ++ path
  toggle : node.2.toggle node.1 = node.1
  leaves : ∀ a ∈ node.2.leaves, a ∈ f.leaves
  network : ∀ d ∈ node.2.network node.1, d ∈ f.network id

/-- A node of a side is a node of the whole. -/
theorem NodeOf.below {f g : Formula String} {id step : String} {node : String × Formula String}
    (h : NodeOf g (id ++ step) node) (hs : IsPath step) (hl : ∀ a ∈ g.leaves, a ∈ f.leaves)
    (hn : ∀ d ∈ g.network (id ++ step), d ∈ f.network id) : NodeOf f id node where
  named := by
    obtain ⟨path, hp, he⟩ := h.named
    exact ⟨step ++ path, hs.append hp, by rw [he, String.append_assoc]⟩
  toggle := h.toggle
  leaves := fun a ha => hl a (h.leaves a ha)
  network := fun d hd => hn d (h.network d hd)

theorem NodeOf.root {f : Formula String} {id : String} (h : f.toggle id = id) : NodeOf f id (id, f) :=
  ⟨⟨"", isPath_empty, by simp⟩, h, fun _ ha => ha, fun _ hd => hd⟩

theorem of_mem_nodes {f : Formula String} {id : String} {node : String × Formula String}
    (h : node ∈ f.nodes id) : NodeOf f id node := by
  induction f generalizing id with
  | leaf a => cases h
  | not f ih =>
    rw [nodes, List.mem_append, List.mem_singleton] at h
    rcases h with h | rfl
    · exact (ih h).below (isPath_step (by simp)) (fun _ ha => ha) fun d hd => by simp [network, hd]
    · exact .root rfl
  | and l r ihl ihr | or l r ihl ihr =>
    rw [nodes, List.mem_append, List.mem_append, List.mem_singleton] at h
    rcases h with (h | h) | rfl
    · exact (ihl h).below (isPath_step (by simp)) (fun a ha => by simp [leaves, ha])
        fun d hd => by simp [network, hd]
    · exact (ihr h).below (isPath_step (by simp)) (fun a ha => by simp [leaves, ha])
        fun d hd => by simp [network, hd]
    · exact .root rfl

end Formula

/-! ## What declarations refer to -/

/-- A declaration refers only to pairs of `ids`, and to pairs both sides of
which are declared in `before`. -/
def Declaration.RefersTo (d : Declaration) (ids : List String) (before : List Declaration) : Prop :=
  ∀ p ∈ d.mentioned, ∃ id on, p = Toggle.property id on ∧
    (id ∈ ids ∨ ∀ side, Toggle.property id side ∈ before.map (·.property))

theorem Declaration.RefersTo.mono {d : Declaration} {ids ids' : List String}
    {before before' : List Declaration} (h : d.RefersTo ids before) (hids : ∀ a ∈ ids, a ∈ ids')
    (hb : ∀ x ∈ before, x ∈ before') : d.RefersTo ids' before' := by
  intro p hp
  obtain ⟨id, on, he, hid⟩ := h p hp
  refine ⟨id, on, he, hid.imp (hids id) fun hside side => ?_⟩
  obtain ⟨x, hx, hprop⟩ := List.mem_map.1 (hside side)
  exact List.mem_map.2 ⟨x, hb x hx, hprop⟩

namespace Formula

/-- A node refers to what its two texts refer to, after what stands below it. -/
theorem refersTo_node {below front rest : List Declaration} {ids : List String} {off on d : Declaration}
    (h : below ++ [off, on] = front ++ d :: rest)
    (hb : ∀ rest', below = front ++ d :: rest' → d.RefersTo ids front)
    (hoff : off.RefersTo ids below) (hon : on.RefersTo ids below) : d.RefersTo ids front := by
  rcases append_eq_split h with ⟨rest', hbelow⟩ | ⟨front', rfl, hlast⟩
  · exact hb rest' hbelow
  · match front', hlast with
    | [], hlast =>
      obtain ⟨rfl, -⟩ := List.cons.inj hlast
      simpa using hoff
    | [_], hlast =>
      -- The text of the other side is declared in between, and not referred to.
      obtain ⟨-, hlast⟩ := List.cons.inj hlast
      obtain ⟨rfl, -⟩ := List.cons.inj hlast
      exact hon.mono (fun _ ha => ha) fun x hx => List.mem_append_left _ hx
    | _ :: _ :: _, hlast => simp at hlast

/-- The toggle of a formula is that of a leaf, or its pair is declared. -/
theorem toggle_declared (f : Formula String) (id : String) :
    f.toggle id ∈ f.leaves ∨
      ∀ side, Toggle.property (f.toggle id) side ∈ (f.network id).map (·.property) := by
  cases f with
  | leaf a => exact .inl (by simp [toggle, leaves])
  | not f | and l r | or l r => exact .inr fun side => by cases side <;> simp [toggle, network]

/-- What a node with two sides refers to. -/
theorem refersTo_sides (l r : Formula String) (id : String) {x y : Bool} {p : String}
    (h : p = Toggle.property (l.toggle (id ++ "A")) x ∨ p = Toggle.property (r.toggle (id ++ "B")) y) :
    ∃ a on, p = Toggle.property a on ∧ (a ∈ l.leaves ++ r.leaves ∨
      ∀ side, Toggle.property a side ∈
        (l.network (id ++ "A") ++ r.network (id ++ "B")).map (·.property)) := by
  rw [List.map_append]
  rcases h with rfl | rfl
  · exact ⟨_, _, rfl, (l.toggle_declared _).imp (List.mem_append_left _)
      fun h side => List.mem_append_left _ (h side)⟩
  · exact ⟨_, _, rfl, (r.toggle_declared _).imp (List.mem_append_right _)
      fun h side => List.mem_append_right _ (h side)⟩

/-- **A network refers to pairs of leaves and to pairs it declared before.** -/
theorem refersTo_network {f : Formula String} {id : String} (hid : IsPlain id)
    (hp : ∀ a ∈ f.leaves, IsPlain a) {front rest : List Declaration} {d : Declaration}
    (h : f.network id = front ++ d :: rest) : d.RefersTo f.leaves front := by
  induction f generalizing id front rest with
  | leaf a => simp [network] at h
  | not f ih =>
    obtain ⟨-, -, hx⟩ := isPlain_below hid
    have hplain : IsPlain (f.toggle (id ++ "X")) := isPlain_toggle hx hp
    refine refersTo_node h (fun rest' => ih hx hp) ?_ ?_ <;>
    · intro p hm
      rw [Declaration.mentioned, Toggle.mentioned_one hplain, List.mem_singleton] at hm
      exact ⟨_, _, hm, f.toggle_declared _⟩
  | and l r ihl ihr | or l r ihl ihr =>
    obtain ⟨ha, hb, -⟩ := isPlain_below hid
    have hpl : ∀ a ∈ l.leaves, IsPlain a := fun a h => hp a (by simp [leaves, h])
    have hpr : ∀ a ∈ r.leaves, IsPlain a := fun a h => hp a (by simp [leaves, h])
    have hbelow : ∀ rest', l.network (id ++ "A") ++ r.network (id ++ "B") = front ++ d :: rest' →
        d.RefersTo (l.leaves ++ r.leaves) front := fun rest' hlr => by
      rcases append_eq_split hlr with ⟨_, hin⟩ | ⟨front', rfl, hin⟩
      · exact (ihl ha hpl hin).mono (fun _ hm => List.mem_append_left _ hm) fun _ hx => hx
      · exact (ihr hb hpr hin).mono (fun _ hm => List.mem_append_right _ hm)
          fun _ hx => List.mem_append_right _ hx
    refine refersTo_node h hbelow ?_ ?_
    all_goals
      intro p hm
      simp only [Declaration.mentioned, Toggle.mentioned_both (isPlain_toggle ha hpl) (isPlain_toggle hb hpr),
        Toggle.mentioned_either (isPlain_toggle ha hpl) (isPlain_toggle hb hpr), List.mem_cons, List.not_mem_nil,
        or_false] at hm
      exact refersTo_sides l r id hm

end Formula

/-! ## The network on an element -/

namespace Element

variable {e : Element} {id : String} {on : Bool}

/-- A pair is declared, with one side `initial`, `-1` if the toggle is on, and
the other side empty. -/
def DeclaresPair (e : Element) (id : String) (on : Bool) : Prop :=
  e.declared.lookup (Toggle.property id on) = some "initial" ∧
    e.declared.lookup (Toggle.property id !on) = some ""

instance : Decidable (e.DeclaresPair id on) := inferInstanceAs (Decidable (_ ∧ _))

end Element

namespace Formula

theorem isPlain_of_isPath {path : String} (h : IsPath path) : IsPlain path := by
  intro c hc
  rcases h c hc with rfl | rfl | rfl <;> decide

section

variable {f : Formula String} {base : String} {e : Element} {holds : String → Bool}

/-- No id in `ids` is that of a node below `base`. -/
def Fresh (base : String) (ids : List String) : Prop :=
  ∀ a ∈ ids, ∀ path, IsPath path → a ≠ base ++ path

/-- A network declares no pair of a leaf whose id is no node's. -/
theorem Fresh.not_mem_network {ids : List String} (h : Fresh base ids) {a : String} (ha : a ∈ ids)
    (side : Bool) : Toggle.property a side ∉ (f.network base).map (·.property) := by
  intro hm
  obtain ⟨d, hd, he⟩ := List.mem_map.1 hm
  obtain ⟨path, on, hpath, hprop⟩ := property_of_mem_network hd
  exact h a ha path hpath (Toggle.property_inj.1 (he.symm.trans hprop)).1

/-- The pairs of the leaves are settled, also after the network is declared. -/
theorem settled_leaf_declare {ids : List String} (h : Fresh base ids)
    (hpairs : ∀ a ∈ ids, e.DeclaresPair a (holds a)) {a : String} (ha : a ∈ ids) :
    (e.declare (f.network base)).Settled (ids.flatMap Toggle.pair) a (holds a) := by
  have hlookup : ∀ side, (e.declare (f.network base)).declared.lookup (Toggle.property a side) =
      e.declared.lookup (Toggle.property a side) := fun side => by
    rw [Element.lookup_declare, valueIn_eq_none (h.not_mem_network ha side), Option.none_or]
  obtain ⟨hlost, hkept⟩ := hpairs a ha
  refine (Element.settled_pair ((hlookup _).trans hlost) ((hlookup _).trans hkept)).mono ?_
  exact fun p hp => List.mem_flatMap.2 ⟨a, ha, hp⟩

/-- The declarations of a network are what the element with them has. -/
theorem lookup_declare_network {d : Declaration} (hd : d ∈ f.network base) :
    (e.declare (f.network base)).declared.lookup d.property = some d.value := by
  rw [Element.lookup_declare, valueIn_of_mem (nodup_network f base) hd, Option.some_or]

/-- **Every node of a network that is declared is settled as it evaluates.** -/
theorem settled_nodes (hp : ∀ a ∈ f.leaves, IsPlain a)
    (h : Fresh base f.leaves) (hpairs : ∀ a ∈ f.leaves, e.DeclaresPair a (holds a))
    {g : Formula String} {id : String}
    (hid : IsPlain id) (hleaves : ∀ a ∈ g.leaves, a ∈ f.leaves)
    (hnet : ∀ d ∈ g.network id, d ∈ f.network base) :
    (e.declare (f.network base)).toggle? (g.toggle id) = some (g.eval holds) := by
  -- No pair of a leaf is declared anew, below this node or elsewhere.
  have hfresh : ∀ d ∈ g.network id, d.property ∉ f.leaves.flatMap Toggle.pair := fun d hd hm => by
    obtain ⟨a, ha, hpair⟩ := List.mem_flatMap.1 hm
    have hdecl : d.property ∈ (f.network base).map (·.property) := List.mem_map_of_mem (hnet d hd)
    rw [Toggle.pair, List.mem_cons, List.mem_singleton] at hpair
    rcases hpair with he | he
    · exact h.not_mem_network ha false (he ▸ hdecl)
    · exact h.not_mem_network ha true (he ▸ hdecl)
  have hsettled := settled_network hid (fun a ha => hp a (hleaves a ha))
    (fun a ha => settled_leaf_declare h hpairs (hleaves a ha))
    (fun d hd => lookup_declare_network (hnet d hd)) hfresh
  exact hsettled.toggle?

end

end Formula

namespace Network

open Formula (Fresh)

/-- **The network of a condition is correct.** There is one if the condition
has a leaf. Declared on an element where every leaf has its pair, it makes its
toggle as the condition is, and the toggle of every composite node as the
formula of that node is: of each pair exactly one side has no value. It
declares the pairs of its composite nodes, no property twice, and refers to
pairs of leaves and to pairs declared earlier, only. -/
theorem ofCondition?_correct {c : Condition String} {base : String} {e : Element}
    {holds : String → Bool} (hbase : IsPlain base) (hp : ∀ a ∈ c.leaves, IsPlain a)
    (hfresh : Fresh base c.leaves) (hpairs : ∀ a ∈ c.leaves, e.DeclaresPair a (holds a)) :
    (ofCondition? c base = none ↔ c.leaves = []) ∧
      ∀ n, ofCondition? c base = some n →
        c.truth? holds = some (n.formula.eval holds) ∧
          (e.declare n.declarations).toggle? n.id = some (n.formula.eval holds) ∧
          (∀ node ∈ n.formula.nodes base,
            (e.declare n.declarations).toggle? node.1 = some (node.2.eval holds)) ∧
          n.declarations.map (·.property) =
            (n.formula.nodes base).flatMap (Toggle.pair ·.1) ∧
          (n.declarations.map (·.property)).Nodup ∧
          ∀ front d rest, n.declarations = front ++ d :: rest → d.RefersTo c.leaves front := by
  constructor
  · have hsome := Condition.isSome_ofCondition? c
    rw [ofCondition?, Option.map_eq_none_iff, ← Option.isNone_iff_eq_none, ← Option.not_isSome, hsome]
    simp
  intro n hn
  obtain ⟨f, hf, rfl⟩ := Option.map_eq_some_iff.1 hn
  rw [← Condition.leaves_ofCondition? hf] at hp hfresh hpairs ⊢
  refine ⟨?_, ?_, fun node hnode => ?_, ?_, Formula.nodup_network f base,
    fun front d rest => Formula.refersTo_network hbase hp⟩
  · rw [Condition.truth?_eq_eval, hf, Option.map_some]
  · exact Formula.settled_nodes hp hfresh hpairs hbase (fun _ ha => ha) fun _ hd => hd
  · have hin := Formula.of_mem_nodes hnode
    obtain ⟨path, hpath, he⟩ := hin.named
    have hid : IsPlain node.1 := he ▸ Formula.isPlain_step hbase (Formula.isPlain_of_isPath hpath)
    rw [← hin.toggle]
    exact Formula.settled_nodes hp hfresh hpairs hid hin.leaves hin.network
  · rw [Formula.properties_network, ← Formula.map_nodes, List.flatMap_map]

/-- Two leaves, one of them twice, negations and a member without a leaf. -/
def sampleCondition : Condition String :=
  .and [.or [.leaf "h", .not (.leaf "d")], .not (.and [.leaf "d", .or []])]

/-- `h` is on and `d` is off. -/
def sampleElement : Element where
  declared := [("--h-1", "initial"), ("--h-0", ""), ("--d-0", "initial"), ("--d-1", "")]

theorem ofCondition?_correct_sample : ∃ n, ofCondition? sampleCondition "c" = some n ∧
    (sampleElement.declare n.declarations).toggle? n.id = some true ∧
    (sampleElement.declare n.declarations).toggle? "cAB" = some true ∧
    n.declarations.length = 8 := by
  have hleaves : sampleCondition.leaves = ["h", "d", "d"] := by decide
  have hfresh : Fresh "c" ["h", "d", "d"] := fun a ha path _ he => by
    have hfirst := congrArg (·.toList.head?) he
    simp only [List.mem_cons, List.not_mem_nil, or_false, or_self] at ha
    rcases ha with rfl | rfl <;> simp at hfirst
  have hcorrect := @ofCondition?_correct sampleCondition "c" sampleElement (· == "h")
    (by simp [IsPlain, Text.isBlank])
    (by simp [hleaves, IsPlain, Text.isBlank]) (hleaves ▸ hfresh) (by rw [hleaves]; decide)
  obtain ⟨-, htoggle, hnodes, -⟩ := hcorrect.2 _ rfl
  have hnot : ("cAB", .not (.leaf "d")) ∈
      Formula.nodes (.and (.or (.leaf "h") (.not (.leaf "d"))) (.not (.leaf "d"))) "c" := by
    decide
  exact ⟨_, rfl, htoggle, hnodes _ hnot, by decide⟩

end Network

end VarLogic
