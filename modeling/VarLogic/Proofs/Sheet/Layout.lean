/-
Layout is spaces and line feeds and nothing else. Whatever the emitter writes, it
writes the same in both layouts, but for what it puts between: one helper after the
other, the text laid out for readers is the compact one with spaces and line feeds
put in (`Loosened`). So both are the same without these (`unspaced_render`), also
where a property, a value or a hook has spaces of its own.
-/
import VarLogic.Sheet.Basic
import Mathlib.Data.List.Forall2

namespace VarLogic

/-! ## Spaces and line feeds -/

/-- What layout is made of. -/
def isFiller (c : Char) : Bool := c = ' ' || c = '\n'

/-- A text without its spaces and line feeds. -/
def unspaced (s : String) : String := String.ofList (s.toList.filter fun c => !isFiller c)

/-- Characters, and the same with spaces and line feeds put in. -/
inductive Loosens : List Char → List Char → Prop
  | nil : Loosens [] []
  | same (c : Char) {s t : List Char} : Loosens s t → Loosens (c :: s) (c :: t)
  | filler {c : Char} {s t : List Char} : isFiller c = true → Loosens s t → Loosens s (c :: t)

namespace Loosens

variable {s s' t t' : List Char}

theorem refl : ∀ s : List Char, Loosens s s
  | [] => .nil
  | c :: s => .same c (refl s)

theorem of_filler (h : ∀ c ∈ t, isFiller c = true) : Loosens [] t := by
  induction t with
  | nil => exact .nil
  | cons c t ih =>
    rw [List.forall_mem_cons] at h
    exact .filler h.1 (ih h.2)

theorem append (h : Loosens s t) (h' : Loosens s' t') : Loosens (s ++ s') (t ++ t') := by
  induction h with
  | nil => exact h'
  | same c _ ih => exact .same c ih
  | filler hc _ ih => exact .filler hc ih

theorem filter_eq (h : Loosens s t) :
    t.filter (fun c => !isFiller c) = s.filter fun c => !isFiller c := by
  induction h with
  | nil => rfl
  | same c _ ih => rw [List.filter_cons, List.filter_cons, ih]
  | filler hc _ ih => rw [List.filter_cons, hc, ih]; rfl

end Loosens

/-- The second text is the first with spaces and line feeds put in. -/
def Loosened (s t : String) : Prop := Loosens s.toList t.toList

namespace Loosened

variable {s s' t t' : String}

theorem refl (s : String) : Loosened s s := Loosens.refl s.toList

theorem append (h : Loosened s t) (h' : Loosened s' t') : Loosened (s ++ s') (t ++ t') := by
  rw [Loosened, String.toList_append, String.toList_append]
  exact Loosens.append h h'

/-- Texts with a separator between any two of them, also where it is loosened. -/
theorem intercalate (h : Loosened s t) {xs ys : List String} (hxs : List.Forall₂ Loosened xs ys) :
    Loosened (s.intercalate xs) (t.intercalate ys) := by
  induction hxs with
  | nil => exact .refl ""
  | @cons x y xs ys hx hxs ih =>
    -- A separator follows only where something else does.
    cases hxs with
    | nil => rwa [String.intercalate_singleton, String.intercalate_singleton]
    | cons hx' hxs =>
      rw [String.intercalate_cons_cons, String.intercalate_cons_cons]
      exact (hx.append h).append ih

theorem unspaced_eq (h : Loosened s t) : unspaced t = unspaced s := by
  rw [unspaced, unspaced, Loosens.filter_eq h]

end Loosened

/-! ## What the emitter writes -/

namespace Layout

variable (layout : Layout)

theorem loosened_space : Loosened compact.space layout.space := by
  refine Loosens.of_filler fun c hc => ?_
  unfold space at hc
  split at hc <;> simp_all [isFiller]

theorem loosened_newline : Loosened compact.newline layout.newline := by
  refine Loosens.of_filler fun c hc => ?_
  unfold newline at hc
  split at hc <;> simp_all [isFiller]

theorem loosened_indentation (depth : Nat) :
    Loosened (compact.indentation depth) (layout.indentation depth) := by
  refine Loosens.of_filler fun c hc => ?_
  unfold indentation at hc
  split at hc <;> simp_all [isFiller]

theorem loosened_declaration (depth : Nat) (d : Declaration) :
    Loosened (compact.declaration depth d) (layout.declaration depth d) :=
  (((((layout.loosened_indentation depth).append (.refl d.property)).append (.refl ":")).append
    layout.loosened_space).append (.refl d.value)).append (.refl ";")

theorem loosened_declarations (depth : Nat) (ds : List Declaration) :
    Loosened (compact.declarations depth ds) (layout.declarations depth ds) := by
  refine layout.loosened_newline.intercalate ?_
  rw [List.forall₂_map_left_iff, List.forall₂_map_right_iff, List.forall₂_same]
  exact fun d _ => layout.loosened_declaration depth d

theorem loosened_block (depth : Nat) (selector : String) (ds : List Declaration) :
    Loosened (compact.block depth selector ds) (layout.block depth selector ds) := by
  have hopen := (((layout.loosened_indentation depth).append (.refl selector)).append
    layout.loosened_space).append (.refl "\x7b")
  have hbody := layout.loosened_newline.append (layout.loosened_declarations (depth + 1) ds)
  have hclose := (layout.loosened_newline.append (layout.loosened_indentation depth)).append
    (.refl "\x7d")
  simpa only [block, String.append_assoc] using (hopen.append hbody).append hclose

end Layout

theorem Rule.loosened_render (rule : Rule) (layout : Layout) :
    Loosened (rule.render .compact) (rule.render layout) := by
  unfold Rule.render
  cases rule.hook with
  | selector text => exact layout.loosened_block 0 _ _
  | atRule kind text =>
    have hopen := ((Loosened.refl text).append layout.loosened_space).append (.refl "\x7b")
    have hclose := layout.loosened_newline.append (.refl "\x7d")
    simpa only [String.append_assoc] using ((hopen.append layout.loosened_newline).append
      (layout.loosened_block 1 "*" rule.declarations)).append hclose

namespace Sheet

theorem loosened_blocks (sheet : Sheet) (layout : Layout) :
    List.Forall₂ Loosened (sheet.blocks .compact) (sheet.blocks layout) := by
  refine List.rel_append ?_ ?_
  · split
    · exact .nil
    · exact .cons (layout.loosened_block 0 "*" sheet.defaults) .nil
  · rw [List.forall₂_map_left_iff, List.forall₂_map_right_iff, List.forall₂_same]
    exact fun rule _ => rule.loosened_render layout

theorem loosened_render (sheet : Sheet) (layout : Layout) :
    Loosened (sheet.render .compact) (sheet.render layout) :=
  layout.loosened_newline.intercalate (sheet.loosened_blocks layout)

/-- **Every layout is the compact one up to spaces and line feeds.** Without these, a
sheet is the same text in any layout, whatever its indentation, and so are
declarations at any depth; and nothing else is put in, left out or moved. -/
theorem unspaced_render (layout : Layout) :
    (∀ sheet : Sheet, unspaced (sheet.render layout) = unspaced (sheet.render .compact) ∧
      Loosened (sheet.render .compact) (sheet.render layout)) ∧
    ∀ depth ds, unspaced (layout.declarations depth ds) =
        unspaced (Layout.compact.declarations depth ds) ∧
      Loosened (Layout.compact.declarations depth ds) (layout.declarations depth ds) := by
  refine ⟨fun sheet => ?_, fun depth ds => ?_⟩
  · have h := sheet.loosened_render layout
    exact ⟨h.unspaced_eq, h⟩
  · have h := layout.loosened_declarations depth ds
    exact ⟨h.unspaced_eq, h⟩

/-- A space of a hook stays in both layouts. -/
example : ({ rules := [⟨.atRule .media "@media print", [⟨"--p-0", ""⟩]⟩] } : Sheet).render
      { pretty := true, indent := 1 } = "@media print \x7b\n * \x7b\n  --p-0: ;\n \x7d\n\x7d" ∧
    ({ rules := [⟨.atRule .media "@media print", [⟨"--p-0", ""⟩]⟩] } : Sheet).render .compact =
      "@media print\x7b*\x7b--p-0:;\x7d\x7d" := by decide

end Sheet

end VarLogic
