/-
Which calls a substitution makes. Its function is called on the leaves, from left
to right, up to the first call that fails, however deep the leaf is (`bindM_of_answers`,
`bindM_of_error`): what the calls do to the state is done in that order, and no
leaf is looked at twice or behind a failure. Where nothing but success or failure
comes of a call, a substitution in the result of another can be done leaf by leaf
(`bindM_bindM`). Only the error may be another one then: the first substitution
fails at its own first leaf, whatever the second one makes of the leaves before it.
-/
import VarLogic.Proofs.Condition.Leaves

namespace VarLogic.Condition

variable {α β γ σ ε : Type}

/-! ## Putting images in place -/

mutual

/-- Puts conditions in place of the leaves, left to right. -/
def fill : Condition α → List (Condition β) → Condition β
  | .leaf _, images => images.headD vacuous
  | .and cs, images => .and (fillAll cs images)
  | .or cs, images => .or (fillAll cs images)
  | .not c, images => .not (c.fill images)
termination_by structural c => c

/-- Puts conditions in place of the leaves of a list of conditions. -/
def fillAll : List (Condition α) → List (Condition β) → List (Condition β)
  | [], _ => []
  | c :: cs, images =>
    c.fill (images.take c.leaves.length) :: fillAll cs (images.drop c.leaves.length)
termination_by structural cs => cs

end

theorem leaves_fill {c : Condition α} {images : List (Condition β)}
    (h : images.length = c.leaves.length) : (c.fill images).leaves = images.flatMap leaves := by
  have list : ∀ {cs : List (Condition α)},
      (∀ c ∈ cs, ∀ {images : List (Condition β)}, images.length = c.leaves.length →
        (c.fill images).leaves = images.flatMap leaves) →
      ∀ {images : List (Condition β)}, images.length = (leavesOf cs).length →
        leavesOf (fillAll cs images) = images.flatMap leaves := by
    intro cs ih
    induction cs with
    | nil =>
      intro images h
      rw [List.length_eq_zero_iff.1 h]
      rfl
    | cons c cs ihcs =>
      intro images h
      rw [leavesOf, List.length_append] at h
      have htake : (images.take c.leaves.length).length = c.leaves.length := by
        rw [List.length_take]
        omega
      have hdrop : (images.drop c.leaves.length).length = (leavesOf cs).length := by
        rw [List.length_drop]
        omega
      rw [fillAll, leavesOf, ih c (by simp) htake, ihcs (fun d hd => ih d (by simp [hd])) hdrop,
        ← List.flatMap_append, List.take_append_drop]
  induction c generalizing images with
  | leaf a =>
    obtain ⟨d, rfl⟩ := List.length_eq_one_iff.1 h
    simp [fill]
  | and cs ih | or cs ih => rw [fill, leaves, list (fun c hc _ => ih c hc) h]
  | not c ih => rw [fill, leaves, ih h]

/-! ## Calls -/

/-- Calls on leaves one after the other, none of which fails: the images, and the
state left behind. -/
inductive Answers (f : α → ExceptT ε (StateM σ) (Condition β)) :
    List α → σ → List (Condition β) → σ → Prop
  | nil (s : σ) : Answers f [] s [] s
  | cons {a : α} {as : List α} {s s₁ s₂ : σ} {image : Condition β}
      {images : List (Condition β)} : f a s = (.ok image, s₁) → Answers f as s₁ images s₂ →
      Answers f (a :: as) s (image :: images) s₂

/-- Does as `f`, and keeps a record of the leaves it is called on. -/
def recording (f : α → ExceptT ε (StateM σ) (Condition β)) (a : α) :
    ExceptT ε (StateM (List α × σ)) (Condition β) := fun (before, s) =>
  ((f a s).1, (before ++ [a], (f a s).2))

variable {f : α → ExceptT ε (StateM σ) (Condition β)}

theorem Answers.length_eq {as : List α} {s s' : σ} {images : List (Condition β)}
    (h : Answers f as s images s') : images.length = as.length := by
  induction h with
  | nil => rfl
  | cons _ _ ih => rw [List.length_cons, List.length_cons, ih]

theorem Answers.of_append {as bs : List α} {s s' : σ} {images : List (Condition β)}
    (h : Answers f (as ++ bs) s images s') :
    ∃ s₁, Answers f as s (images.take as.length) s₁ ∧
      Answers f bs s₁ (images.drop as.length) s' := by
  induction as generalizing s images with
  | nil => exact ⟨s, .nil s, h⟩
  | cons a as ih =>
    cases h with
    | cons ha h =>
      obtain ⟨s₁, h₁, h₂⟩ := ih h
      exact ⟨s₁, .cons ha h₁, h₂⟩

/-- Calls on leaves one after the other end with the last one or with a failure. -/
theorem answers_or_error (f : α → ExceptT ε (StateM σ) (Condition β)) (as : List α) (s : σ) :
    (∃ images s', Answers f as s images s') ∨
      ∃ front a back images s₁ e s', as = front ++ a :: back ∧ Answers f front s images s₁ ∧
        f a s₁ = (.error e, s') := by
  induction as generalizing s with
  | nil => exact .inl ⟨[], s, .nil s⟩
  | cons a as ih =>
    rcases ha : f a s with ⟨e | image, s₁⟩
    · exact .inr ⟨[], a, as, [], s, e, s₁, rfl, .nil s, ha⟩
    · rcases ih s₁ with ⟨images, s', h⟩ | ⟨front, b, back, images, s₂, e, s', rfl, h, hb⟩
      · exact .inl ⟨image :: images, s', .cons ha h⟩
      · exact .inr ⟨a :: front, b, back, image :: images, s₂, e, s', rfl, .cons ha h, hb⟩

theorem recording_eq {a : α} {s s' : σ} {answer : Except ε (Condition β)} (before : List α)
    (h : f a s = (answer, s')) : recording f a (before, s) = (answer, (before ++ [a], s')) := by
  rw [recording, h]

theorem Answers.recording {as : List α} {s s' : σ} {images : List (Condition β)}
    (h : Answers f as s images s') (before : List α) :
    Answers (recording f) as (before, s) images (before ++ as, s') := by
  induction h generalizing before with
  | nil s =>
    rw [List.append_nil]
    exact .nil _
  | cons ha _ ih =>
    rw [List.append_cons]
    exact .cons (recording_eq before ha) (ih _)

/-! ## Runs -/

theorem bindExceptT_of_ok {δ : Type} {x : ExceptT ε (StateM σ) γ}
    {k : γ → ExceptT ε (StateM σ) δ} {s s₁ : σ} {d : γ} (h : x s = (.ok d, s₁)) :
    (x >>= k) s = k d s₁ := by
  change StateT.bind x (ExceptT.bindCont k) s = _
  simp only [StateT.bind, h]
  rfl

theorem bindExceptT_of_error {δ : Type} {x : ExceptT ε (StateM σ) γ}
    {k : γ → ExceptT ε (StateM σ) δ} {s s₁ : σ} {e : ε} (h : x s = (.error e, s₁)) :
    (x >>= k) s = (.error e, s₁) := by
  change StateT.bind x (ExceptT.bindCont k) s = _
  simp only [StateT.bind, h]
  rfl

/-- Where no call fails, the images come in place of the leaves. -/
theorem bindM_of_answers {c : Condition α} {s s' : σ} {images : List (Condition β)}
    (h : Answers f c.leaves s images s') : bindM f c s = (.ok (c.fill images), s') := by
  have list : ∀ {cs : List (Condition α)},
      (∀ c ∈ cs, ∀ {s s' images}, Answers f c.leaves s images s' →
        bindM f c s = (.ok (c.fill images), s')) →
      ∀ {s s' images}, Answers f (leavesOf cs) s images s' →
        bindAllM f cs s = (.ok (fillAll cs images), s') := by
    intro cs ih
    induction cs with
    | nil =>
      rintro s _ _ ⟨⟩
      rfl
    | cons c cs ihcs =>
      intro s s' images h
      obtain ⟨s₁, hc, hcs⟩ := h.of_append
      rw [bindAllM, bindExceptT_of_ok (ih c (by simp) hc),
        bindExceptT_of_ok (ihcs (fun d hd => ih d (by simp [hd])) hcs)]
      rfl
  induction c generalizing s s' images with
  | leaf a =>
    obtain _ | ⟨ha, ⟨⟩⟩ := h
    exact ha
  | and cs ih | or cs ih =>
    rw [bindM, bindExceptT_of_ok (list (fun c hc _ _ _ => ih c hc) h)]
    rfl
  | not c ih =>
    rw [bindM, bindExceptT_of_ok (ih h)]
    rfl

/-- The first call that fails ends the run, at every level around its leaf. -/
theorem bindM_of_error {c : Condition α} {front back : List α} {a : α}
    {images : List (Condition β)} {s s₁ s' : σ} {e : ε} (hl : c.leaves = front ++ a :: back)
    (h : Answers f front s images s₁) (ha : f a s₁ = (.error e, s')) :
    bindM f c s = (.error e, s') := by
  have list : ∀ {cs : List (Condition α)},
      (∀ c ∈ cs, ∀ {front back images s}, c.leaves = front ++ a :: back →
        Answers f front s images s₁ → bindM f c s = (.error e, s')) →
      ∀ {front back images s}, leavesOf cs = front ++ a :: back →
        Answers f front s images s₁ → bindAllM f cs s = (.error e, s') := by
    intro cs ih
    induction cs with
    | nil =>
      intro front back images s hl
      simp [leavesOf] at hl
    | cons c cs ihcs =>
      intro front back images s hl h
      rw [bindAllM]
      rcases append_eq_split hl with ⟨rest, hc⟩ | ⟨mid, rfl, hcs⟩
      · rw [bindExceptT_of_error (ih c (by simp) hc h)]
      · obtain ⟨s₂, hc, hmid⟩ := h.of_append
        rw [bindExceptT_of_ok (bindM_of_answers hc),
          bindExceptT_of_error (ihcs (fun d hd => ih d (by simp [hd])) hcs hmid)]
  induction c generalizing front back images s with
  | leaf b =>
    cases front with
    | nil =>
      obtain ⟨rfl, -⟩ := List.cons.inj hl
      cases h
      exact ha
    | cons => simp [leaves] at hl
  | and cs ih | or cs ih =>
    rw [bindM, bindExceptT_of_error (list (fun c hc _ _ _ _ => ih c hc) hl h)]
  | not c ih => rw [bindM, bindExceptT_of_error (ih hl h)]

/-! ## Substitutions one after the other -/

/-- Whether a substitution fails does not depend on the errors. -/
theorem toOption_bindM (f : α → Except ε (Condition β)) (c : Condition α) :
    (bindM f c).toOption = bindM (fun a => (f a).toOption) c := by
  have list : ∀ {cs : List (Condition α)},
      (∀ c ∈ cs, (bindM f c).toOption = bindM (fun a => (f a).toOption) c) →
      (bindAllM f cs).toOption = bindAllM (fun a => (f a).toOption) cs := by
    intro cs ih
    induction cs with
    | nil => rfl
    | cons c cs ihcs =>
      rw [bindAllM, bindAllM, ← ih c (by simp), ← ihcs fun d hd => ih d (by simp [hd])]
      cases bindM f c with
      | error e => rfl
      | ok d => cases bindAllM f cs <;> rfl
  induction c with
  | leaf a => rfl
  | and cs ih | or cs ih =>
    rw [bindM, bindM, ← list ih]
    cases bindAllM f cs <;> rfl
  | not c ih =>
    rw [bindM, bindM, ← ih]
    cases bindM f c <;> rfl

theorem toOption_bind (x : Except ε β) (k : β → Except ε γ) :
    (x >>= k).toOption = x.toOption >>= fun a => (k a).toOption := by
  cases x <;> rfl

/-- A substitution in the result of another is one substitution. -/
theorem bindM_bindM (f : α → Option (Condition β)) (g : β → Option (Condition γ))
    (c : Condition α) : bindM f c >>= bindM g = bindM (fun a => f a >>= bindM g) c := by
  have list : ∀ {cs : List (Condition α)},
      (∀ c ∈ cs, bindM f c >>= bindM g = bindM (fun a => f a >>= bindM g) c) →
      bindAllM f cs >>= bindAllM g = bindAllM (fun a => f a >>= bindM g) cs := by
    intro cs ih
    induction cs with
    | nil => rfl
    | cons c cs ihcs =>
      rw [bindAllM, bindAllM, ← ih c (by simp), ← ihcs fun d hd => ih d (by simp [hd])]
      cases bindM f c with
      | none => rfl
      | some d =>
        cases bindAllM f cs with
        -- A failure behind comes first on the left, and last on the right.
        | none => cases hd : bindM g d <;> simp [hd]
        | some ds => rfl
  induction c with
  | leaf a => rfl
  | and cs ih | or cs ih =>
    rw [bindM, bindM, ← list ih]
    cases bindAllM f cs <;> rfl
  | not c ih =>
    rw [bindM, bindM, ← ih]
    cases bindM f c <;> rfl

/-- **The calls of a substitution.** The function is called on the leaves from left
to right, each as often as it stands there, in the state that the calls before left
behind. If no call fails, the images come in place of the leaves, so that the leaves
of the result are theirs in order; otherwise the first failure is the last call, and
its error is the result. Of substitutions without a state, one in the result of
another is the same as one that substitutes in every image, and one way fails where
the other does. -/
theorem bindM_calls (c : Condition α) :
    (∀ (f : α → ExceptT ε (StateM σ) (Condition β)) (s : σ),
      (∃ images s', Answers f c.leaves s images s' ∧
        bindM f c s = (.ok (c.fill images), s') ∧
        bindM (recording f) c ([], s) = (.ok (c.fill images), (c.leaves, s')) ∧
        (c.fill images).leaves = images.flatMap leaves) ∨
      ∃ front a back images s₁ e s', c.leaves = front ++ a :: back ∧
        Answers f front s images s₁ ∧ f a s₁ = (.error e, s') ∧
        bindM f c s = (.error e, s') ∧
        bindM (recording f) c ([], s) = (.error e, (front ++ [a], s'))) ∧
    ∀ (f : α → Except ε (Condition β)) (g : β → Except ε (Condition γ)),
      (bindM f c >>= bindM g).toOption = (bindM (fun a => f a >>= bindM g) c).toOption := by
  constructor
  · intro f s
    rcases answers_or_error f c.leaves s with
      ⟨images, s', h⟩ | ⟨front, a, back, images, s₁, e, s', hl, h, ha⟩
    · exact .inl ⟨images, s', h, bindM_of_answers h, bindM_of_answers (h.recording []),
        leaves_fill h.length_eq⟩
    · exact .inr ⟨front, a, back, images, s₁, e, s', hl, h, ha, bindM_of_error hl h ha,
        bindM_of_error hl (h.recording []) (recording_eq front ha)⟩
  · intro f g
    have hg : (fun d => (bindM g d).toOption) = bindM fun b => (g b).toOption :=
      funext fun d => toOption_bindM g d
    rw [toOption_bind, toOption_bindM, toOption_bindM, hg, bindM_bindM]
    exact congrArg (bindM · c) (funext fun a => by rw [toOption_bind, hg])

-- The second call fails, so the other lists are not gone into.
example : bindM (recording fun n s => (if n = 2 then .error "two" else .ok (.leaf n), s + n))
    (.and [.leaf 1, .not (.or [.leaf 2, .leaf 3]), .leaf 4]) ([], 0) =
      (.error "two", ([1, 2], 3)) := rfl

end VarLogic.Condition
