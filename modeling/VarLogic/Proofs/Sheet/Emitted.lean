/-
The texts of an emitted sheet. What the emitter writes between braces holds
words, hyphens, colons, semicolons and blanks only, so it is read as it was
written, whatever stands around it (`lexemes_block`).
-/
import VarLogic.Sheet.Basic
import VarLogic.Proofs.Css.Plain
import VarLogic.Proofs.ShortId

namespace VarLogic

open Css

/-! ## Plain texts -/

/-- A text that leaves no lexeme open and opens no block. -/
def IsPlainText (s : String) : Prop := ∀ c ∈ s.toList, isPlain c = true

instance (s : String) : Decidable (IsPlainText s) :=
  decidable_of_iff (s.toList.all isPlain = true) List.all_eq_true

theorem IsPlainText.append {s t : String} (hs : IsPlainText s) (ht : IsPlainText t) :
    IsPlainText (s ++ t) := by
  intro c hc
  rw [String.toList_append, List.mem_append] at hc
  exact hc.elim (hs c) (ht c)

theorem ShortId.IsWord.isPlainText {id : String} (h : ShortId.IsWord id) : IsPlainText id := by
  intro c hc
  have hw := h.isWordChar hc
  cases hp : isPlain c with
  | true => rfl
  | false =>
    simp only [isPlain, List.contains_eq_mem, List.mem_cons, List.not_mem_nil, or_false,
      Bool.not_eq_false', decide_eq_true_eq] at hp
    rcases hp with rfl | rfl | rfl | rfl | rfl | rfl | rfl | rfl | rfl | rfl | rfl <;> cases hw

theorem plain_property {id : String} (h : ShortId.IsWord id) (on : Bool) :
    IsPlainText (Toggle.property id on) := by
  refine IsPlainText.append (IsPlainText.append (by decide) h.isPlainText) ?_
  cases on <;> decide

namespace Layout

variable (layout : Layout)

theorem plain_space : IsPlainText layout.space := by
  unfold space
  split <;> decide

theorem plain_newline : IsPlainText layout.newline := by
  unfold newline
  split <;> decide

theorem plain_indentation (depth : Nat) : IsPlainText (layout.indentation depth) := by
  unfold indentation
  split
  · intro c hc
    rw [String.toList_ofList] at hc
    rw [(List.mem_replicate.1 hc).2]
    rfl
  · decide

theorem indentation_zero : layout.indentation 0 = "" := by
  unfold indentation
  split <;> rfl

theorem plain_declaration (depth : Nat) {d : Declaration} (hp : IsPlainText d.property)
    (hv : IsPlainText d.value) : IsPlainText (layout.declaration depth d) := by
  unfold declaration
  exact (((((layout.plain_indentation depth).append hp).append (by decide)).append
    layout.plain_space).append hv).append (by decide)

/-- What stands between the braces of a block. -/
def body (depth : Nat) (ds : List Declaration) : String :=
  layout.newline ++ layout.declarations (depth + 1) ds ++ layout.newline ++ layout.indentation depth

theorem plain_body (depth : Nat) {d e : Declaration}
    (h : ∀ x ∈ [d, e], IsPlainText x.property ∧ IsPlainText x.value) :
    IsPlainText (layout.body depth [d, e]) := by
  have hd := h d (by simp)
  have he := h e (by simp)
  have hpair : layout.declarations (depth + 1) [d, e] =
      layout.declaration (depth + 1) d ++ layout.newline ++ layout.declaration (depth + 1) e := rfl
  unfold body
  rw [hpair]
  exact ((layout.plain_newline.append (((layout.plain_declaration _ hd.1 hd.2).append
    layout.plain_newline).append (layout.plain_declaration _ he.1 he.2))).append
    layout.plain_newline).append (layout.plain_indentation depth)

theorem block_toList (depth : Nat) (selector : String) (ds : List Declaration) (rest : List Char) :
    (layout.block depth selector ds).toList ++ rest =
      (layout.indentation depth ++ selector ++ layout.space).toList ++
        '{' :: ((layout.body depth ds).toList ++ '}' :: rest) := by
  have hopen : "\x7b".toList = ['{'] := rfl
  have hclose : "\x7d".toList = ['}'] := rfl
  simp only [block, body, String.toList_append, hopen, hclose, List.append_assoc,
    List.cons_append, List.nil_append]

end Layout

namespace Sheet

theorem plain_values : ∀ value ∈ ["initial", ""], IsPlainText value := by decide

theorem plain_atRest {id : String} (h : ShortId.IsWord id) (layout : Layout) (depth : Nat) :
    IsPlainText (layout.body depth (atRest id)) := by
  refine layout.plain_body depth fun d hd => ?_
  simp only [List.mem_cons, List.not_mem_nil, or_false] at hd
  rcases hd with rfl | rfl
  · exact ⟨plain_property h false, plain_values _ (by simp)⟩
  · exact ⟨plain_property h true, plain_values _ (by simp)⟩

theorem plain_whileActive {id : String} (h : ShortId.IsWord id) (layout : Layout) (depth : Nat) :
    IsPlainText (layout.body depth (whileActive id)) := by
  refine layout.plain_body depth fun d hd => ?_
  simp only [List.mem_cons, List.not_mem_nil, or_false] at hd
  rcases hd with rfl | rfl
  · exact ⟨plain_property h false, plain_values _ (by simp)⟩
  · exact ⟨plain_property h true, plain_values _ (by simp)⟩

end Sheet

/-! ## Blocks -/

namespace Css

/-- A plain block behind a prelude that ends where its tokens do. -/
theorem lexemes_block {x b : List Char} (hx : Solid x) (hb : ∀ c ∈ b, isPlain c = true)
    (y : List Char) :
    lexemes (x ++ '{' :: (b ++ '}' :: y)) =
      lexemes x ++ ⟨.openCurly, ['{']⟩ :: (lexemes b ++ ⟨.closeCurly, ['}']⟩ :: lexemes y) := by
  rw [hx _ (bracketed_cons rfl _), lexemes_of_token_one rfl,
    solid_of_plain hb _ (bracketed_cons rfl _), lexemes_of_token_one rfl]

theorem nested_plain {banned : Token → Bool} {x : List Char} (hx : ∀ c ∈ x, isPlain c = true)
    (hb : ∀ t, Token.isPlain t = true → banned t = false) : Nested banned (lexemes x) := by
  have h : Nested banned (lexemes x ++ []) :=
    Nested.append_plain (fun l hl => ⟨lexemes_plain hx l hl, hb _ (lexemes_plain hx l hl)⟩) .nil
  rwa [List.append_nil] at h

/-- A block of declarations is read as one. -/
theorem readRule?_plain {x b : List Char} (hx : ∀ c ∈ x, isPlain c = true)
    (hb : ∀ c ∈ b, isPlain c = true) (y : List Char) :
    readRule? (lexemes (x ++ '{' :: (b ++ '}' :: y))) =
      some (⟨none, lexemes x, lexemes b⟩, lexemes y) := by
  have hlex := lexemes_block (solid_of_plain hx) hb y
  have hk : keyword? (lexemes (x ++ '{' :: (b ++ '}' :: y))) = none := by
    rw [hlex, keyword?_append rfl, keyword?_of_plain (lexemes_plain hx)]
  refine readRule?_eq_some.2 ⟨_, _, hlex, rfl, rfl, hk.symm, ?_, ?_⟩
  · rw [hk]
    exact nested_plain hx fun t => not_endsPrelude_of_plain
  · exact nested_plain hb fun t => not_closeCurly_of_plain

end Css

end VarLogic
