/-
The leaves on the way from a condition to its network. Its normal form and its
formula have them as they are. Where there is a composite node, each leaf is the
child of one, and both properties of a child are referred to by the two texts of
its node, whatever the node (`readBy_network`); so the network of a condition
that is more than a leaf reads both properties of every leaf
(`Network.leaves_kept`). This is said of texts, so the leaves may have any name; a
reference to a plain one is one that the text mentions
(`HasReferenceTo.mem_mentioned`).
-/
import VarLogic.Proofs.Condition.Leaves
import VarLogic.Proofs.Condition.Normal
import VarLogic.Proofs.Condition.Renaming
import VarLogic.Proofs.Element.References

namespace VarLogic

open Element (IsPlain)

/-! ## Texts -/

namespace Element

/-- The text has a reference to the property in it: `var(`, the name, and then a
comma or the closing parenthesis. -/
def HasReferenceTo (text : List Char) (property : String) : Prop :=
  ∃ mark, (mark = ',' ∨ mark = ')') ∧
    'v' :: 'a' :: 'r' :: '(' :: (property.toList ++ [mark]) <:+: text

theorem HasReferenceTo.mono {text text' : List Char} {p : String} (h : HasReferenceTo text p)
    (ht : text <:+: text') : HasReferenceTo text' p := by
  obtain ⟨mark, hmark, hin⟩ := h
  exact ⟨mark, hmark, hin.trans ht⟩

theorem mem_mentioned_cons {p : String} {cs : List Char} (c : Char) (h : p ∈ mentioned cs) :
    p ∈ mentioned (c :: cs) := by
  by_cases hstart : ∃ ds, c = 'v' ∧ cs = 'a' :: 'r' :: '(' :: ds
  · -- No reference starts inside the `var(` of another.
    obtain ⟨ds, rfl, rfl⟩ := hstart
    rw [mentioned_cons (by decide), mentioned_cons (by decide), mentioned_cons (by decide)] at h
    exact List.mem_cons_of_mem _ h
  · rwa [mentioned.eq_2 _ _ fun ds hc hcs => hstart ⟨ds, hc, hcs⟩]

/-- A text mentions the plain names it has references to. -/
theorem HasReferenceTo.mem_mentioned {text : List Char} {p : String} (h : HasReferenceTo text p)
    (hp : IsPlain p) : p ∈ mentioned text := by
  obtain ⟨mark, hmark, front, rest, rfl⟩ := h
  have hhere : p ∈ mentioned ('v' :: 'a' :: 'r' :: '(' :: (p.toList ++ mark :: rest)) := by
    rw [mentioned_reference hp hmark]
    exact List.mem_cons_self
  rw [List.append_assoc]
  induction front with
  | nil => simpa using hhere
  | cons c front ih => exact mem_mentioned_cons c ih

end Element

open Element (HasReferenceTo)

namespace Toggle

/-! What the texts of a node refer to. -/

variable {a b c : String} {x : Bool}

theorem hasReferenceTo_one : HasReferenceTo (reference a x).toList (property a x) :=
  ⟨')', .inr rfl, [], [], by simp [toList_reference]⟩

theorem hasReferenceTo_both (h : c = a ∨ c = b) :
    HasReferenceTo (reference a x ++ " " ++ reference b x).toList (property c x) := by
  rw [String.toList_append, String.toList_append]
  refine hasReferenceTo_one.mono ?_
  rcases h with rfl | rfl
  · exact ((List.prefix_append _ _).trans (List.prefix_append _ _)).isInfix
  · exact (List.suffix_append _ _).isInfix

theorem hasReferenceTo_either (h : c = a ∨ c = b) :
    HasReferenceTo (referenceOr a x (reference b x)).toList (property c x) := by
  rw [toList_referenceOr]
  rcases h with rfl | rfl
  · exact ⟨',', .inl rfl, [], ' ' :: (reference b x).toList ++ [')'], by simp⟩
  · exact hasReferenceTo_one.mono
      ⟨'v' :: 'a' :: 'r' :: '(' :: ((property a x).toList ++ [',', ' ']), [')'], by simp⟩

end Toggle

/-! ## Networks -/

/-- Both properties of the toggle are referred to by declarations. -/
def ReadBy (ds : List Declaration) (id : String) : Prop :=
  ∀ side, ∃ d ∈ ds, HasReferenceTo d.value.toList (Toggle.property id side)

theorem ReadBy.mono {ds ds' : List Declaration} {id : String} (h : ReadBy ds id)
    (hs : ∀ d ∈ ds, d ∈ ds') : ReadBy ds' id := by
  intro side
  obtain ⟨d, hd, href⟩ := h side
  exact ⟨d, hs d hd, href⟩

namespace Formula

/-- A toggle is read by a node if each of the two texts refers to one side of
its pair. -/
theorem readBy_node {below : List Declaration} {id off on t : String} (x : Bool)
    (hoff : HasReferenceTo off.toList (Toggle.property t x))
    (hon : HasReferenceTo on.toList (Toggle.property t !x)) :
    ReadBy (below ++ [⟨Toggle.property id false, off⟩, ⟨Toggle.property id true, on⟩]) t := by
  intro side
  by_cases h : side = x
  · exact ⟨⟨Toggle.property id false, off⟩, by simp, h ▸ hoff⟩
  · exact ⟨⟨Toggle.property id true, on⟩, by simp, Bool.eq_not.2 h ▸ hon⟩

/-- A leaf is read above a formula whose toggle is: it is that toggle, or the
network of the formula reads it. -/
theorem readBy_above {f : Formula String} {id a : String} {ds : List Declaration}
    (h : f = .leaf a ∨ ReadBy (f.network id) a) (ht : ReadBy ds (f.toggle id))
    (hn : ∀ d ∈ f.network id, d ∈ ds) : ReadBy ds a := by
  rcases h with rfl | h
  · exact ht
  · exact h.mono hn

/-- A leaf of either side is read where the toggles of both are. -/
theorem readBy_sides {l r : Formula String} {id a : String} {ds : List Declaration}
    (hl : a ∈ l.leaves → l = .leaf a ∨ ReadBy (l.network (id ++ "A")) a)
    (hr : a ∈ r.leaves → r = .leaf a ∨ ReadBy (r.network (id ++ "B")) a)
    (ht : ∀ t, t = l.toggle (id ++ "A") ∨ t = r.toggle (id ++ "B") → ReadBy ds t)
    (hn : ∀ d ∈ l.network (id ++ "A") ++ r.network (id ++ "B"), d ∈ ds)
    (ha : a ∈ l.leaves ++ r.leaves) : ReadBy ds a := by
  rcases List.mem_append.1 ha with ha | ha
  · exact readBy_above (hl ha) (ht _ (.inl rfl)) fun d hd => hn d (List.mem_append_left _ hd)
  · exact readBy_above (hr ha) (ht _ (.inr rfl)) fun d hd => hn d (List.mem_append_right _ hd)

/-- **A network reads every leaf**, unless there is nothing but the leaf. -/
theorem readBy_network {f : Formula String} {id a : String} (ha : a ∈ f.leaves) :
    f = .leaf a ∨ ReadBy (f.network id) a := by
  induction f generalizing id with
  | leaf b => exact .inl (by rw [List.mem_singleton.1 ha])
  | not f ih =>
    have ht : ReadBy ((not f).network id) (f.toggle (id ++ "X")) :=
      readBy_node true Toggle.hasReferenceTo_one Toggle.hasReferenceTo_one
    exact .inr (readBy_above (ih ha) ht fun d hd => List.mem_append_left _ hd)
  | and l r ihl ihr =>
    refine .inr (readBy_sides ihl ihr (fun t h => ?_) (fun d hd => List.mem_append_left _ hd) ha)
    exact readBy_node false (Toggle.hasReferenceTo_both h) (Toggle.hasReferenceTo_either h)
  | or l r ihl ihr =>
    refine .inr (readBy_sides ihl ihr (fun t h => ?_) (fun d hd => List.mem_append_left _ hd) ha)
    exact readBy_node false (Toggle.hasReferenceTo_either h) (Toggle.hasReferenceTo_both h)

end Formula

/-! ## Conditions -/

/-- A normal form has a formula as it stands, a leaf only if it is one itself. -/
theorem Condition.lower?_of_isNormal {α : Type} {d : Condition α} (h : d.IsNormal) :
    ∃ f, Formula.lower? d = some f ∧ ∀ a, f = .leaf a → d = .leaf a := by
  induction h with
  | leaf a => exact ⟨.leaf a, rfl, fun b hb => by rw [Formula.leaf.inj hb]⟩
  | and _ _ ihc ihd =>
    obtain ⟨f, hf, -⟩ := ihc
    obtain ⟨g, hg, -⟩ := ihd
    exact ⟨.and f g, by simp [Formula.lower?, Formula.lowers, hf, hg, Formula.chain?], by simp⟩
  | or _ _ ihc ihd =>
    obtain ⟨f, hf, -⟩ := ihc
    obtain ⟨g, hg, -⟩ := ihd
    exact ⟨.or f g, by simp [Formula.lower?, Formula.lowers, hf, hg, Formula.chain?], by simp⟩
  | not _ _ ih =>
    obtain ⟨f, hf, -⟩ := ih
    exact ⟨.not f, by simp [Formula.lower?, hf], by simp⟩

namespace Network

/-- **No leaf is lost.** A condition with a leaf has a normal form, a formula and,
with its leaves named, a network. The first two have the leaves of the condition,
in order and as often; and unless the normal form is a leaf, both properties of
every leaf are referred to by declarations of the network, which mention them if
the name is plain. -/
theorem leaves_kept {α : Type} {c : Condition α} (h : c.leaves ≠ []) (name : α → String)
    (base : String) :
    ∃ d f n, c.normal? = some d ∧ d.leaves = c.leaves ∧
      Formula.ofCondition? c = some f ∧ f.leaves = c.leaves ∧
      ofCondition? (c.map name) base = some n ∧
      ((∀ a, d ≠ .leaf a) → ∀ a ∈ c.leaves, ∀ side, ∃ e ∈ n.declarations,
        HasReferenceTo e.value.toList (Toggle.property (name a) side) ∧
          (IsPlain (name a) → Toggle.property (name a) side ∈ e.mentioned)) := by
  obtain ⟨d, hd⟩ := Option.ne_none_iff_exists'.1 (mt Condition.normal?_eq_none.1 h)
  obtain ⟨f, hf, hleaf⟩ := Condition.lower?_of_isNormal (Condition.isNormal_of_normal? hd)
  have hof : Formula.ofCondition? c = some f := by
    rw [Formula.ofCondition?, hd, Option.bind_some, hf]
  have hn : ofCondition? (c.map name) base =
      some ⟨(f.map name).toggle base, (f.map name).network base, f.map name⟩ := by
    rw [ofCondition?, Condition.ofCondition?_map, hof]
    rfl
  have hleaves := Condition.leaves_ofCondition? hof
  refine ⟨d, f, _, hd, Condition.leaves_of_normal? hd, hof, hleaves, hn, fun hbare a ha side => ?_⟩
  have hmem : name a ∈ (f.map name).leaves := by
    rw [Formula.leaves_map, hleaves]
    exact List.mem_map_of_mem ha
  rcases Formula.readBy_network hmem with he | hread
  · cases f with
    | leaf b => exact absurd (hleaf b rfl) (hbare b)
    | and | or | not => cases he
  · obtain ⟨e, he, href⟩ := hread side
    exact ⟨e, he, href, fun hp => href.mem_mentioned (Toggle.isPlain_property hp side)⟩

/-- One leaf twice, one below a negation, and a member without any. -/
def numberedCondition : Condition Nat :=
  .not (.and [.leaf 1, .or [], .not (.leaf 2), .leaf 1])

theorem leaves_kept_twice : ∃ d n, numberedCondition.normal? = some d ∧ d.leaves = [1, 2, 1] ∧
    ofCondition? (numberedCondition.map fun k => if k = 1 then "h" else "d") "c" = some n ∧
    ∀ side, ∃ e ∈ n.declarations, Toggle.property "d" side ∈ e.mentioned := by
  obtain ⟨d, f, n, hd, hleaves, -, -, hn, hread⟩ :=
    @leaves_kept Nat numberedCondition (by decide) (fun k => if k = 1 then "h" else "d") "c"
  have hbare : ∀ a, d ≠ .leaf a := by
    rintro a rfl
    cases hd
  refine ⟨d, n, hd, hleaves, hn, fun side => ?_⟩
  obtain ⟨e, he, -, hplain⟩ := hread hbare 2 (by decide) side
  exact ⟨e, he, hplain (by simp [IsPlain, Text.isBlank])⟩

end Network

end VarLogic
