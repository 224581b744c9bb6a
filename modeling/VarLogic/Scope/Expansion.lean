/-
Names expanded down to hooks. A name in a definition stands for the condition
that was in sight when the definition was made: an earlier one of the same
level, or else one of the levels around it. So a definition that mentions its
own name means an outer condition, and a later definition changes nothing.
-/
import VarLogic.Scope.Basic

namespace VarLogic.Scope

/-- The conditions of all levels, the latest first. -/
def history (s : Scope) : List NamedCondition := s.levels.flatMap (·.conditions.reverse)

/-- What a name stands for, over hook texts, given the conditions made so far,
the latest first. -/
def expandName : List NamedCondition → String → Condition String
  | [], _ => .vacuous
  | c :: earlier, name =>
    if c.name = name then
      c.definition.bind fun leaf =>
        if Hook.isHookSyntax leaf then .leaf leaf else expandName earlier leaf
    else expandName earlier name

/-- What a name in sight stands for, over hook texts. -/
def expansion (s : Scope) (name : String) : Condition String := expandName s.history name

/-- What a name in sight stands for, over the ids of its hooks, if all of them
have one. -/
def expansionOverIds? (s : Scope) (name : String) : Option (Condition String) :=
  (s.expansion name).bindM fun text => (s.hookId? text).map .leaf

end VarLogic.Scope
