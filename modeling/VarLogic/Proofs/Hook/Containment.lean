/-
Hooks in an emitted sheet. A hook stands verbatim in front of a brace, a
selector with `*` for the element. Its rule is read as it was written, whatever
follows, exactly if nothing in that text reaches over the brace or ends the
prelude before it, and an at-keyword stands first where one has to and only
there (`contained_iff_framed`).
-/
import VarLogic.Proofs.Hook.Accepted
import VarLogic.Proofs.Sheet.Emitted

namespace VarLogic.Hook

open Css

/-! ## What is written -/

/-- The text of the hook in its rule. -/
def head : Hook → String
  | selector text => (selector text).scopedSelector
  | atRule _ text => text

/-- The at-keyword of the rule, without its `@`. -/
def keyword? : Hook → Option (List Char)
  | selector _ => none
  | atRule rule _ => some rule.keyword.toList.tail

/-- From the end of the `*` block to the brace of the hook's rule. -/
def front (hook : Hook) (layout : Layout) : String :=
  layout.newline ++ hook.head ++ layout.space

/-- What stands between the braces of the hook's rule. -/
def inside (hook : Hook) (id : String) (layout : Layout) : List Char :=
  match hook with
  | selector _ => (layout.body 0 (Sheet.whileActive id)).toList
  | atRule _ _ =>
    (layout.newline ++ layout.block 1 "*" (Sheet.whileActive id) ++ layout.newline).toList

/-- The sheet of one hook. -/
def sheet (hook : Hook) (id : String) (layout : Layout) : String :=
  (Sheet.empty.addHook hook id).render layout

/-! ## What is read -/

/-- A `*` block with the declarations, as the emitter writes it. -/
structure IsStarBlock (layout : Layout) (depth : Nat) (ds : List Declaration) (before : String)
    (rule : ReadRule) : Prop where
  keyword : rule.keyword? = none
  prelude : texts rule.prelude = (before ++ layout.indentation depth ++ "*" ++ layout.space).toList
  block : texts rule.block = (layout.body depth ds).toList

/-- The rule of a hook: an at-rule of its kind around a `*` block, or a rule
with the selector. -/
structure IsRuleOf (hook : Hook) (id : String) (layout : Layout) (rule : ReadRule) : Prop where
  keyword : rule.keyword? = hook.keyword?
  prelude : texts rule.prelude = (hook.front layout).toList
  block : texts rule.block = hook.inside id layout
  star : hook.isAtRule = true → ∃ star,
    readRule? rule.block = some (star, lexemes layout.newline.toList) ∧
      IsStarBlock layout 1 (Sheet.whileActive id) layout.newline star

/-- The sheet of a hook with some text behind it is read as the `*` block and
the rule of the hook, and then as that text. -/
def Contained (hook : Hook) (id : String) (layout : Layout) (rest : String) : Prop :=
  ∃ star after rule, readRule? (lexemes (hook.sheet id layout ++ rest).toList) = some (star, after) ∧
    IsStarBlock layout 0 (Sheet.atRest id) "" star ∧
    readRule? after = some (rule, lexemes rest.toList) ∧ IsRuleOf hook id layout rule

/-- The text in front of the brace keeps to itself: no token of it takes the
brace, its blocks are closed, outside them nothing in it ends the prelude, and
it starts with the hook's at-keyword or with none. -/
structure Framed (hook : Hook) (layout : Layout) : Prop where
  ends : lexemes ((hook.front layout).toList ++ ['{']) =
    lexemes (hook.front layout).toList ++ [⟨.openCurly, ['{']⟩]
  nested : Nested (endsPrelude hook.isAtRule) (lexemes (hook.front layout).toList)
  keyword : Css.keyword? (lexemes (hook.front layout).toList) = hook.keyword?

/-! ## Reading what is written -/

theorem keyword?_isSome (hook : Hook) : hook.keyword?.isSome = hook.isAtRule := by
  cases hook <;> rfl

theorem sheet_toList (hook : Hook) (id : String) (layout : Layout) (rest : String) :
    (hook.sheet id layout ++ rest).toList =
      ("*" ++ layout.space).toList ++ '{' :: ((layout.body 0 (Sheet.atRest id)).toList ++ '}' ::
        ((hook.front layout).toList ++ '{' :: (hook.inside id layout ++ '}' :: rest.toList))) := by
  have hsheet : hook.sheet id layout = layout.block 0 "*" (Sheet.atRest id) ++ layout.newline ++
      (Rule.mk hook (Sheet.whileActive id)).render layout := rfl
  have hrule : layout.newline.toList ++
      (((Rule.mk hook (Sheet.whileActive id)).render layout).toList ++ rest.toList) =
        (hook.front layout).toList ++ '{' :: (hook.inside id layout ++ '}' :: rest.toList) := by
    cases hook with
    | selector text =>
      simp only [Rule.render, front, head, inside, List.append_assoc, Layout.block_toList,
        layout.indentation_zero, String.toList_append, String.toList_empty, List.nil_append]
    | atRule rule text =>
      have hopen : "\x7b".toList = ['{'] := rfl
      have hclose : "\x7d".toList = ['}'] := rfl
      simp only [Rule.render, front, head, inside, String.toList_append, hopen, hclose,
        List.append_assoc, List.cons_append, List.nil_append]
  rw [hsheet, String.toList_append, String.toList_append, String.toList_append, List.append_assoc,
    List.append_assoc, hrule, Layout.block_toList, layout.indentation_zero, String.empty_append]

section
variable {id : String} (hid : ShortId.IsWord id) (layout : Layout)
include hid

/-- The `*` block comes first. -/
theorem readRule?_star (hook : Hook) (rest : String) : ∃ star,
    readRule? (lexemes (hook.sheet id layout ++ rest).toList) = some (star,
      lexemes ((hook.front layout).toList ++ '{' :: (hook.inside id layout ++ '}' :: rest.toList))) ∧
    IsStarBlock layout 0 (Sheet.atRest id) "" star := by
  have hstar : IsPlainText ("*" ++ layout.space) := IsPlainText.append (by decide) layout.plain_space
  rw [sheet_toList, readRule?_plain hstar (Sheet.plain_atRest hid layout 0)]
  refine ⟨_, rfl, rfl, ?_, texts_lexemes _⟩
  rw [texts_lexemes, layout.indentation_zero, String.append_empty, String.empty_append]

/-- What stands between the braces of the rule is read up to the closing one. -/
theorem lexemes_inside (hook : Hook) : ∃ ks, texts ks = hook.inside id layout ∧
    Nested (· == .closeCurly) ks ∧
    (∀ y, lexemes (hook.inside id layout ++ '}' :: y) = ks ++ ⟨.closeCurly, ['}']⟩ :: lexemes y) ∧
    (hook.isAtRule = true → ∃ star, readRule? ks = some (star, lexemes layout.newline.toList) ∧
      IsStarBlock layout 1 (Sheet.whileActive id) layout.newline star) := by
  have hbody := Sheet.plain_whileActive hid layout
  cases hook with
  | selector text =>
    refine ⟨lexemes (layout.body 0 (Sheet.whileActive id)).toList, texts_lexemes _, ?_, fun y => ?_,
      fun h => by cases h⟩
    · exact nested_plain (hbody 0) fun t => not_closeCurly_of_plain
    · rw [inside, solid_of_plain (hbody 0) _ (bracketed_cons rfl _), lexemes_of_token_one rfl]
  | atRule rule text =>
    have hprelude : IsPlainText (layout.newline ++ layout.indentation 1 ++ "*" ++ layout.space) :=
      ((layout.plain_newline.append (layout.plain_indentation 1)).append (by decide)).append
        layout.plain_space
    have hinside : ∀ z, inside (atRule rule text) id layout ++ z =
        (layout.newline ++ layout.indentation 1 ++ "*" ++ layout.space).toList ++
          '{' :: ((layout.body 1 (Sheet.whileActive id)).toList ++ '}' ::
            (layout.newline.toList ++ z)) := fun z => by
      simp only [inside, String.toList_append, List.append_assoc, Layout.block_toList,
        List.cons_append]
    have hlex := fun z => congrArg lexemes (hinside z)
    have hnil := hlex []
    rw [List.append_nil, List.append_nil] at hnil
    refine ⟨lexemes (inside (atRule rule text) id layout), texts_lexemes _, ?_, fun y => ?_,
      fun _ => ?_⟩
    · rw [hnil, lexemes_block (solid_of_plain hprelude) (hbody 1)]
      refine Nested.append_plain (fun l hl => ?_) (.block rfl rfl ?_ rfl ?_)
      · exact ⟨lexemes_plain hprelude l hl, not_closeCurly_of_plain (lexemes_plain hprelude l hl)⟩
      · exact nested_plain (hbody 1) fun t => not_closeCurly_of_plain
      · exact nested_plain layout.plain_newline fun t => not_closeCurly_of_plain
    · rw [hlex, hnil, lexemes_block (solid_of_plain hprelude) (hbody 1),
        lexemes_block (solid_of_plain hprelude) (hbody 1),
        solid_of_plain layout.plain_newline _ (bracketed_cons rfl _), lexemes_of_token_one rfl]
      simp
    · rw [hnil, readRule?_plain hprelude (hbody 1)]
      exact ⟨_, rfl, rfl, texts_lexemes _, texts_lexemes _⟩

/-- A framed text is the prelude of a rule. -/
theorem readRule?_of_framed {hook : Hook} (h : Framed hook layout) (rest : String) : ∃ rule,
    readRule? (lexemes ((hook.front layout).toList ++
      '{' :: (hook.inside id layout ++ '}' :: rest.toList))) = some (rule, lexemes rest.toList) ∧
    IsRuleOf hook id layout rule := by
  obtain ⟨ks, hks, hnested, hread, hstar⟩ := lexemes_inside hid layout hook
  have hbrace : lexemes ['{'] = [⟨.openCurly, ['{']⟩] := by
    rw [lexemes_of_token_one rfl, lexemes_nil]
  have hsolid : Solid (hook.front layout).toList :=
    (solid_iff (by rfl : isBracket '{' = true)).2 (by rw [h.ends, hbrace])
  have hlex : lexemes ((hook.front layout).toList ++
      '{' :: (hook.inside id layout ++ '}' :: rest.toList)) =
        lexemes (hook.front layout).toList ++
          ⟨.openCurly, ['{']⟩ :: (ks ++ ⟨.closeCurly, ['}']⟩ :: lexemes rest.toList) := by
    rw [hsolid _ (bracketed_cons rfl _), lexemes_of_token_one rfl, hread]
  have hkeyword : Css.keyword? (lexemes ((hook.front layout).toList ++
      '{' :: (hook.inside id layout ++ '}' :: rest.toList))) = hook.keyword? := by
    rw [hlex, keyword?_append rfl, h.keyword]
  refine ⟨⟨hook.keyword?, lexemes (hook.front layout).toList, ks⟩, ?_, rfl, texts_lexemes _, hks,
    hstar⟩
  refine readRule?_eq_some.2 ⟨_, _, hlex, rfl, rfl, hkeyword.symm, ?_, hnested⟩
  rw [hkeyword, keyword?_isSome]
  exact h.nested

omit hid in
/-- Where the rule of a hook is read, its text is framed. -/
theorem framed_of_readRule? {hook : Hook} {z : List Char} {rule : ReadRule} {rest : List Lexeme}
    (hread : readRule? (lexemes ((hook.front layout).toList ++ '{' :: z)) = some (rule, rest))
    (hrule : IsRuleOf hook id layout rule) : Framed hook layout := by
  obtain ⟨l, m, hlex, hl, -, hk, hnested, -⟩ := readRule?_eq_some.1 hread
  obtain ⟨hsolid, hprelude⟩ := solid_of_texts rfl hlex hrule.prelude
  have hkeyword : Css.keyword? (lexemes ((hook.front layout).toList ++ '{' :: z)) =
      Css.keyword? (lexemes (hook.front layout).toList) := by
    rw [hsolid _ (bracketed_cons rfl _), lexemes_of_token_one rfl, keyword?_append rfl]
  have hkind : Css.keyword? (lexemes (hook.front layout).toList) = hook.keyword? := by
    rw [← hkeyword, ← hk, hrule.keyword]
  refine ⟨?_, ?_, hkind⟩
  · rw [hsolid _ (bracketed_cons rfl _), lexemes_of_token_one rfl, lexemes_nil]
  · rw [hkeyword, hkind, keyword?_isSome, hprelude] at hnested
    exact hnested

/-- **The rule of a hook is read as written** if its text is framed, and only
then. -/
theorem contained_iff_framed (hook : Hook) (rest : String) :
    Contained hook id layout rest ↔ Framed hook layout := by
  obtain ⟨star, hstar, hisStar⟩ := readRule?_star hid layout hook rest
  constructor
  · rintro ⟨star', after, rule, hstar', -, hrule, hisRule⟩
    rw [hstar] at hstar'
    cases hstar'
    exact framed_of_readRule? layout hrule hisRule
  · intro h
    obtain ⟨rule, hrule, hisRule⟩ := readRule?_of_framed hid layout h rest
    exact ⟨star, _, rule, hstar, hisStar, hrule, hisRule⟩

end

/-! ## Keywords -/

theorem name_append {w : List Char} (hw : ∀ d ∈ w, isNameChar d = true ∧ d ≠ '\\' ∧ d ≠ '\x00')
    (ds : List Char) : (name (w ++ ds)).1 = w ++ (name ds).1 := by
  induction w with
  | nil => rfl
  | cons d w ih =>
    obtain ⟨hn, hb, hz⟩ := hw d (by simp)
    rw [List.cons_append, name_cons hb hn, ih fun e he => hw e (by simp [he]), if_neg hz]
    rfl

/-- A blank ends a name if it is one in ASCII, and goes on with it if not. -/
theorem name_blank {c : Char} (hc : Text.isBlank c = true) (ds : List Char) :
    (name (c :: ds)).1 = [] ↔ c.toNat < 128 := by
  by_cases hlt : c.toNat < 128
  · have hcode : (9 ≤ c.toNat ∧ c.toNat ≤ 13) ∨ c.toNat = 32 := by
      simp only [Text.isBlank, Bool.or_eq_true, Bool.and_eq_true, decide_eq_true_eq, beq_iff_eq] at hc
      omega
    have hchar : c = Char.ofNat c.toNat := (Char.ofNat_toNat c).symm
    have hstop : isNameChar c = false ∧ c ≠ '\\' := by
      have hcases : c.toNat = 9 ∨ c.toNat = 10 ∨ c.toNat = 11 ∨ c.toNat = 12 ∨ c.toNat = 13 ∨
          c.toNat = 32 := by omega
      rcases hcases with h | h | h | h | h | h <;> rw [hchar, h] <;> decide
    simp [name_stop hstop.2 hstop.1, hlt]
  · have hstart : isNameChar c = true := by
      simp only [isNameChar, isNameStart, Bool.or_eq_true, decide_eq_true_eq]
      omega
    have hb : c ≠ '\\' := by
      rintro rfl
      exact hlt (by decide)
    simp [name_cons hb hstart, hlt]

theorem keyword?_at {cs : List Char} (h : startsName cs = true) :
    Css.keyword? (lexemes ('@' :: cs)) = some (name cs).1 := by
  rw [lexemes, token_at, h]
  rfl

theorem keyword?_newline (layout : Layout) (cs : List Char) :
    Css.keyword? (lexemes (layout.newline.toList ++ '@' :: cs)) =
      Css.keyword? (lexemes ('@' :: cs)) := by
  unfold Layout.newline
  split
  · have htoken : token '\n' ('@' :: cs) = (.whitespace ['\n'], '@' :: cs) := rfl
    have hline : "\n".toList ++ '@' :: cs = '\n' :: '@' :: cs := rfl
    rw [hline, lexemes_of_token_one htoken]
    rfl
  · rfl

/-- The keyword of an at-rule is read as such if a blank in ASCII follows. -/
theorem keyword?_front {rule : AtRule} {text : String} {c : Char} {rest : List Char}
    (htext : text.toList = rule.keyword.toList ++ c :: rest) (hc : Text.isBlank c = true)
    (layout : Layout) :
    Css.keyword? (lexemes ((atRule rule text).front layout).toList) = (atRule rule text).keyword? ↔
      c.toNat < 128 := by
  have hat : rule.keyword.toList = '@' :: rule.keyword.toList.tail := by cases rule <;> rfl
  have hchars : ∀ d ∈ rule.keyword.toList.tail, isNameChar d = true ∧ d ≠ '\\' ∧ d ≠ '\x00' := by
    have hall : (rule.keyword.toList.tail.all fun d =>
        isNameChar d && d != '\\' && d != '\x00') = true := by
      cases rule <;> rfl
    simpa [and_assoc] using hall
  have hfront : ((atRule rule text).front layout).toList = layout.newline.toList ++
      '@' :: (rule.keyword.toList.tail ++ c :: (rest ++ layout.space.toList)) := by
    rw [front, head, String.toList_append, String.toList_append, htext, hat]
    simp
  have hname : startsName (rule.keyword.toList.tail ++ c :: (rest ++ layout.space.toList)) = true := by
    cases rule <;> rfl
  rw [hfront, keyword?_newline, keyword?_at hname, name_append hchars, keyword?, Option.some_inj,
    List.append_right_eq_self, name_blank hc]

/-- How the rule of a hook starts: a selector with no at-keyword, an at-rule
with a blank in ASCII behind its own. -/
def StartsRule (hook : Hook) (layout : Layout) : Prop :=
  match hook with
  | selector _ => Css.keyword? (lexemes (hook.front layout).toList) = none
  | atRule rule text =>
    ∀ c rest, text.toList = rule.keyword.toList ++ c :: rest → c.toNat < 128

theorem startsRule_iff {text : String} {hook : Hook} (h : Starts text hook) (layout : Layout) :
    StartsRule hook layout ↔
      Css.keyword? (lexemes (hook.front layout).toList) = hook.keyword? := by
  cases h with
  | selector _ _ => rfl
  | @atRule rule c rest htext hc _ =>
    rw [keyword?_front htext hc]
    constructor
    · exact fun h => h c rest htext
    · intro h d ds hd
      obtain rfl := (List.cons.inj (List.append_cancel_left (htext.symm.trans hd))).1
      exact h

/-- **A hook keeps to its own rule** in the emitted sheet exactly if no token of
its text takes the brace behind it, its blocks are closed, no brace (and in an
at-rule no semicolon) stands outside them, and it starts as its rule has to. -/
theorem contained_iff {text : String} {hook : Hook} (hp : parse text = .ok hook) {id : String}
    (hid : ShortId.IsWord id) (layout : Layout) (rest : String) :
    Contained hook id layout rest ↔
      lexemes ((hook.front layout).toList ++ ['{']) =
        lexemes (hook.front layout).toList ++ [⟨.openCurly, ['{']⟩] ∧
      Nested (endsPrelude hook.isAtRule) (lexemes (hook.front layout).toList) ∧
      StartsRule hook layout := by
  rw [contained_iff_framed hid, startsRule_iff (parse_eq_ok.1 hp).1]
  exact ⟨fun h => ⟨h.ends, h.nested, h.keyword⟩, fun ⟨he, hn, hk⟩ => ⟨he, hn, hk⟩⟩

theorem contained_hovered : Contained (.selector "&:hover") "h" .compact "*\x7b\x7d" := by
  have hp : parse "&:hover" = .ok (.selector "&:hover") :=
    parse_selector (by decide) (by decide) (by decide +kernel)
  refine (contained_iff hp ⟨'h', [], by decide, by decide, by simp⟩ .compact _).2 ⟨?_, ?_, ?_⟩
  · decide +kernel
  · have hsplit : splitTop (endsPrelude false) []
        (lexemes ((selector "&:hover").front .compact).toList ++ [⟨.openCurly, ['{']⟩]) =
          some (lexemes ((selector "&:hover").front .compact).toList, ⟨.openCurly, ['{']⟩, []) := by
      decide +kernel
    exact (splitTop_eq_some.1 hsplit).1
  · change Css.keyword? (lexemes ((selector "&:hover").front .compact).toList) = none
    decide +kernel

/-- The function that is open in this hook takes the braces of the rule. -/
theorem not_contained_escaped_paren : parse "&:is(\\)" = .ok (.selector "&:is(\\)") ∧
    ShortId.IsWord "h" ∧ ¬ Contained (.selector "&:is(\\)") "h" .compact "" := by
  have hid : ShortId.IsWord "h" := ⟨'h', [], by decide, by decide, by simp⟩
  refine ⟨parse_escaped_paren, hid, fun h => ?_⟩
  have hframed := (contained_iff_framed hid _ _ _).1 h
  have hsplit : splitTop (endsPrelude false) []
      (lexemes ((selector "&:is(\\)").front .compact).toList ++ [⟨.openCurly, ['{']⟩]) =
        some (lexemes ((selector "&:is(\\)").front .compact).toList, ⟨.openCurly, ['{']⟩, []) :=
    splitTop_eq_some.2 ⟨hframed.nested, rfl, rfl⟩
  exact absurd hsplit (by decide +kernel)

end VarLogic.Hook
