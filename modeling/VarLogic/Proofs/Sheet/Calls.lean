/-
A document over a whole run of calls. A sheet that is handed out leaves its key,
a sheet that is withheld leaves nothing, and nothing but `clear` takes a key away
(`Session.Sound.step`). So at any time the keys are those of the sheets handed out
since the last `clear`, each once (`sound_session`), and whether a sheet is handed
out can be told from the answers so far (`handed_out_once`). Between two `clear`s
the keys are those of all sheets that were asked for, in whatever order
(`issued_foldl_step`).
-/
import VarLogic.Proofs.Sheet.Issued
import Mathlib.Data.List.DropRight
import Mathlib.Data.List.Induction
import Mathlib.Data.List.Nodup

namespace VarLogic.Issued

/-! ## Calls -/

/-- What a document can be asked. -/
inductive Call where
  /-- For a sheet as CSS. -/
  | insert (sheet : Sheet) (layout : Layout)
  /-- Whether it has been given a sheet. -/
  | contains (sheet : Sheet)
  /-- For the number of sheets. -/
  | size
  /-- To forget all sheets. -/
  | clear
deriving DecidableEq, Repr

inductive Answer where
  | css (text : Option String)
  | found (isThere : Bool)
  | count (n : Nat)
  | cleared
deriving DecidableEq, Repr

/-- The sheet that a call asks for. -/
def Call.inserted? : Call → Option (Sheet × Layout)
  | .insert sheet layout => some (sheet, layout)
  | _ => none

/-- The answer to a call, and what has been handed out then. -/
def call (issued : Issued) : Call → Answer × Issued
  | .insert sheet layout =>
    (.css (issued.insert sheet layout).1, (issued.insert sheet layout).2)
  | .contains sheet => (.found (issued.contains sheet), issued)
  | .size => (.count issued.size, issued)
  | .clear => (.cleared, empty)

/-! ## Logs -/

/-- The sheet that a call has handed out, by its answer. -/
def handedOut? : Call × Answer → Option Sheet
  | (.insert sheet _, .css (some _)) => some sheet
  | _ => none

/-- The sheets handed out since the last `clear`, by a log of calls and answers. -/
def handedOut (log : List (Call × Answer)) : List Sheet :=
  (log.rtakeWhile (·.1 ≠ .clear)).filterMap handedOut?

theorem handedOut_concat {log : List (Call × Answer)} {c : Call} (hc : c ≠ .clear) (a : Answer) :
    handedOut (log ++ [(c, a)]) = handedOut log ++ (handedOut? (c, a)).toList := by
  rw [handedOut, List.rtakeWhile_concat_pos _ _ _ (by simpa using hc), List.filterMap_append]
  rfl

theorem handedOut_clear (log : List (Call × Answer)) (a : Answer) :
    handedOut (log ++ [(.clear, a)]) = [] := by
  rw [handedOut, List.rtakeWhile_concat_neg _ _ _ (by simp)]
  rfl

/-! ## Runs -/

/-- What was asked and answered from the start, and what has been handed out. -/
structure Session where
  log : List (Call × Answer) := []
  issued : Issued := empty

/-- One more call. -/
def Session.step (r : Session) (c : Call) : Session where
  log := r.log ++ [(c, (r.issued.call c).1)]
  issued := (r.issued.call c).2

/-- Calls one after the other, from the start. -/
def session (calls : List Call) : Session := calls.foldl Session.step {}

/-- The keys are those of the sheets handed out since the last `clear`, and no
two of these have the same. -/
structure Session.Sound (r : Session) : Prop where
  keys : r.issued.keys = (handedOut r.log).map (·.key)
  nodup : r.issued.keys.Nodup

/-- A call that hands out nothing changes nothing, `clear` apart. -/
theorem call_of_handedOut?_eq_none {issued : Issued} {c : Call} (hc : c ≠ .clear)
    (h : handedOut? (c, (issued.call c).1) = none) : (issued.call c).2 = issued := by
  cases c with
  | insert sheet layout =>
    cases hcss : (issued.insert sheet layout).1 with
    | none => exact congrArg Prod.snd (insert_of_withheld (insert_eq_none.1 hcss))
    | some css => simp [handedOut?, call, hcss] at h
  | contains sheet => rfl
  | size => rfl
  | clear => exact absurd rfl hc

/-- A call that hands out a sheet adds its key, which is a new one. -/
theorem call_of_handedOut?_eq_some {issued : Issued} {c : Call} {sheet : Sheet}
    (h : handedOut? (c, (issued.call c).1) = some sheet) :
    sheet.key ∉ issued.keys ∧ (issued.call c).2.keys = issued.keys ++ [sheet.key] := by
  cases c with
  | insert asked layout =>
    cases hcss : (issued.insert asked layout).1 with
    | none => simp [handedOut?, call, hcss] at h
    | some css =>
      obtain rfl : asked = sheet := by simpa [handedOut?, call, hcss] using h
      obtain ⟨⟨hsheet, hkey⟩, -⟩ := insert_eq_some.1 hcss
      exact ⟨hkey, by rw [call, insert_of_new hsheet hkey]⟩
  | contains asked => cases h
  | size => cases h
  | clear => cases h

/-- **A call keeps the keys and the log together.** -/
theorem Session.Sound.step {r : Session} (h : r.Sound) (c : Call) : (r.step c).Sound := by
  -- `clear` lets both start anew, whatever they were.
  by_cases hc : c = .clear
  · subst hc
    exact ⟨by rw [Session.step, handedOut_clear]; rfl, List.nodup_nil⟩
  · cases hout : handedOut? (c, (r.issued.call c).1) with
    | none =>
      have hsame := call_of_handedOut?_eq_none hc hout
      refine ⟨?_, ?_⟩
      · rw [Session.step, handedOut_concat hc, hout, hsame, h.keys]
        simp
      · rw [Session.step, hsame]
        exact h.nodup
    | some sheet =>
      obtain ⟨hnew, hkeys⟩ := call_of_handedOut?_eq_some hout
      refine ⟨?_, ?_⟩
      · rw [Session.step, handedOut_concat hc, hout, hkeys, h.keys]
        simp
      · rw [Session.step, hkeys, ← List.concat_eq_append]
        exact .concat hnew h.nodup

theorem sound_session (calls : List Call) : (session calls).Sound := by
  induction calls using List.reverseRecOn with
  | nil => exact ⟨rfl, List.nodup_nil⟩
  | append_singleton calls c ih =>
    rw [session, List.foldl_concat]
    exact ih.step c

/-- Where nothing is cleared, what is asked for alone matters. -/
theorem issued_foldl_step {calls : List Call} (hc : .clear ∉ calls) (r : Session) :
    (calls.foldl Session.step r).issued = r.issued.insertAll (calls.filterMap Call.inserted?) := by
  induction calls generalizing r with
  | nil => rfl
  | cons c calls ih =>
    rw [List.mem_cons, not_or] at hc
    rw [List.foldl_cons, ih hc.2]
    cases c with
    | insert sheet layout => rfl
    | contains sheet => rfl
    | size => rfl
    | clear => exact absurd rfl hc.1

/-- In another order, the same sheets leave the same keys. -/
theorem keys_perm {during during' : List Call} (hc : .clear ∉ during) (hc' : .clear ∉ during')
    (hp : (during.filterMap Call.inserted?).Perm (during'.filterMap Call.inserted?))
    (calls : List Call) :
    (session (calls ++ during)).issued.keys.Perm (session (calls ++ during')).issued.keys := by
  -- No key is there twice, so the same ones being there is enough.
  rw [List.perm_ext_iff_of_nodup (sound_session _).nodup (sound_session _).nodup]
  intro key
  rw [session, session, List.foldl_append, List.foldl_append, issued_foldl_step hc,
    issued_foldl_step hc', mem_keys_insertAll, mem_keys_insertAll]
  simp only [hp.mem_iff]

/-- **Every sheet is handed out once.** After any calls, a sheet is handed out if
it has content and no sheet with its key was handed out since the last `clear`,
and then as its own CSS. A call that hands out nothing changes nothing, `clear`
apart. The size is the number of sheets handed out since the last `clear`, and a
sheet with content is there if it would be withheld now. And between two `clear`s
the order in which sheets are asked for changes neither the keys handed out nor
the size. -/
theorem handed_out_once (calls : List Call) (sheet : Sheet) (layout : Layout) :
    (∀ css, ((session calls).issued.insert sheet layout).1 = some css ↔
      (sheet.isEmpty = false ∧
          ∀ other ∈ handedOut (session calls).log, other.key ≠ sheet.key) ∧
        css = sheet.render layout) ∧
    (∀ c, c ≠ .clear → handedOut? (c, ((session calls).issued.call c).1) = none →
      ((session calls).issued.call c).2 = (session calls).issued) ∧
    (session calls).issued.size = (handedOut (session calls).log).length ∧
    (sheet.isEmpty = false → ((session calls).issued.contains sheet = true ↔
      ((session calls).issued.insert sheet layout).1 = none)) ∧
    ∀ during during', .clear ∉ during → .clear ∉ during' →
      (during.filterMap Call.inserted?).Perm (during'.filterMap Call.inserted?) →
        ((handedOut (session (calls ++ during)).log).map (·.key)).Perm
            ((handedOut (session (calls ++ during')).log).map (·.key)) ∧
          (session (calls ++ during)).issued.size = (session (calls ++ during')).issued.size := by
  have hsound := sound_session calls
  refine ⟨?_, ?_, ?_, ?_, ?_⟩
  · intro css
    rw [insert_eq_some, hsound.keys, List.mem_map]
    grind
  · intro c hc hnone
    exact call_of_handedOut?_eq_none hc hnone
  · rw [size, hsound.keys, List.length_map]
  · intro hsheet
    rw [insert_eq_none, contains, List.contains_iff_mem, hsheet]
    simp
  · intro during during' hc hc' hp
    have hkeys := keys_perm hc hc' hp calls
    refine ⟨?_, hkeys.length_eq⟩
    rwa [(sound_session _).keys, (sound_session _).keys] at hkeys

def hoverSheet : Sheet := Sheet.empty.addHook (.selector "&:hover") "h"

def darkSheet : Sheet := Sheet.empty.addHook (.atRule .media "@media (prefers-color-scheme: dark)") "d"

/-- The sheet for hovering asked for before and after all is forgotten, and a
sheet without content. -/
def hoverCalls : List Call :=
  [.insert hoverSheet .spacious, .clear, .insert .empty .compact, .insert hoverSheet .compact,
    .contains darkSheet, .insert hoverSheet .spacious]

theorem handed_out_once_hover :
    ((session hoverCalls).issued.insert darkSheet .compact).1 = some (darkSheet.render .compact) ∧
      (session hoverCalls).issued.size = 1 ∧ (session hoverCalls).issued.contains darkSheet = false ∧
        ((session hoverCalls).issued.call (.insert hoverSheet .compact)).2 =
          (session hoverCalls).issued ∧
        (session (hoverCalls ++ [.insert darkSheet .compact, .insert hoverSheet .compact])).issued.size =
          (session (hoverCalls ++
            [.insert hoverSheet .compact, .size, .insert darkSheet .compact])).issued.size := by
  obtain ⟨hcss, hsame, hsize, hthere, horder⟩ := handed_out_once hoverCalls darkSheet .compact
  have hcontent : darkSheet.isEmpty = false := rfl
  have hnew : ∀ other ∈ handedOut (session hoverCalls).log, other.key ≠ darkSheet.key := by
    decide +kernel
  have hdark := (hcss _).2 ⟨⟨hcontent, hnew⟩, rfl⟩
  refine ⟨hdark, ?_, ?_, ?_, ?_⟩
  · rw [hsize]
    decide +kernel
  · rw [← Bool.not_eq_true, hthere hcontent, hdark]
    simp
  · exact hsame _ (by simp) (by decide +kernel)
  · have hp : (List.filterMap Call.inserted?
          [.insert darkSheet .compact, .insert hoverSheet .compact]).Perm
        (List.filterMap Call.inserted?
          [.insert hoverSheet .compact, .size, .insert darkSheet .compact]) := .swap _ _ _
    exact (horder _ _ (by simp) (by simp) hp).2

end VarLogic.Issued
