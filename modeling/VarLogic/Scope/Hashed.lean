/-
Which texts are hashed while a scope is built. The outermost definitions give
the hash of the scope, and every hook that a level brings in and every condition
that has a hook in it an id, from its text or name, that hash and its depth. The
levels around a scope were hashed when they were built.
-/
import VarLogic.Scope.View

namespace VarLogic

/-- The text whose hash is the id of a text at some depth. -/
def ShortId.idText (hash : String) (depth : Nat) (text : String) : String :=
  (Json.Value.array [.string text, .string hash, .number (.integer depth)]).compact

namespace Level

/-- The definitions of a level, in order. -/
def definitions (level : Level) : Definitions :=
  level.conditions.map fun c => (c.name, c.definition)

/-- What gets an id of its own: the hooks a level brought in, and the conditions
with a hook in them. -/
def identified (level : Level) : List String :=
  level.hooks.map (·.hook.text) ++
    (level.conditions.filter (·.compiled.isSome)).map (·.name)

/-- The texts hashed for levels given nearest first. -/
def hashedTexts (hash : String) : List Level → List String
  | [] => []
  | level :: outer =>
    (if outer.isEmpty then [level.definitions.toValue.compact] else hashedTexts hash outer) ++
      level.identified.map (ShortId.idText hash outer.length)

end Level

namespace Scope

/-- The texts hashed while the scope and the levels around it were built. -/
def hashedTexts (s : Scope) : List String := Level.hashedTexts s.hash s.levels

/-- The texts hashed for two scopes and for the keys of their sheets. -/
def hashedTogether (s t : Scope) : List String :=
  s.hashedTexts ++ t.hashedTexts ++ [s.sheet.keyText, t.sheet.keyText]

/-- Different texts have different hashes, among those hashed for two scopes. -/
def CollisionFree (s t : Scope) : Prop :=
  ∀ x ∈ s.hashedTogether t, ∀ y ∈ s.hashedTogether t, ShortId.ofText x = ShortId.ofText y → x = y

instance (s t : Scope) : Decidable (s.CollisionFree t) :=
  inferInstanceAs (Decidable (∀ x ∈ s.hashedTogether t, ∀ y ∈ s.hashedTogether t,
    ShortId.ofText x = ShortId.ofText y → x = y))

end Scope

end VarLogic
