/-
**Reading lines back.**

A text written line by line, each line with a line feed at its end, is read as the same lines, as long as
no line holds a line feed or ends with a carriage return.
-/

import Structurer.Text.Words

namespace Structurer.Text

open List

variable {line cs rest : List Char}

/-- A text that stays one line, with nothing taken from its end. -/
structure OneLine (cs : List Char) : Prop where
  noFeed : '\n' ∉ cs
  noReturn : cs.getLast? ≠ some '\r'

instance (cs : List Char) : Decidable (OneLine cs) :=
  decidable_of_iff ('\n' ∉ cs ∧ cs.getLast? ≠ some '\r') ⟨fun h => ⟨h.1, h.2⟩, fun h => ⟨h.1, h.2⟩⟩

theorem OneLine.of_not_mem (hfeed : '\n' ∉ cs) (hreturn : '\r' ∉ cs) : OneLine cs :=
  ⟨hfeed, fun h => hreturn (mem_of_getLast? h)⟩

theorem dropReturn_eq_self (h : cs.getLast? ≠ some '\r') : dropReturn cs = cs := by
  induction cs with
  | nil => rfl
  | cons c cs ih =>
    cases cs with
    | nil =>
      have hc : c ≠ '\r' := by simpa using h
      simp [dropReturn, hc]
    | cons d cs =>
      rw [getLast?_cons_cons] at h
      rw [dropReturn, ih h]
      simp

theorem linesFrom_append (h : '\n' ∉ cs) :
    linesFrom line (cs ++ '\n' :: rest) = dropReturn (line.reverse ++ cs) :: linesFrom [] rest := by
  induction cs generalizing line with
  | nil => simp [linesFrom]
  | cons c cs ih =>
    rw [mem_cons, not_or] at h
    rw [cons_append, linesFrom, if_neg (Ne.symm h.1), ih h.2]
    simp

def unlines (ls : List (List Char)) : List Char := ls.flatMap (· ++ ['\n'])

@[simp] theorem unlines_append (ls ls' : List (List Char)) :
    unlines (ls ++ ls') = unlines ls ++ unlines ls' := by
  simp [unlines]

/-- **Lines are read back as they were written.** -/
theorem lines_unlines {ls : List (List Char)} (h : ∀ l ∈ ls, OneLine l) :
    lines (String.ofList (unlines ls)) = ls := by
  rw [lines, String.toList_ofList]
  induction ls with
  | nil => rfl
  | cons l ls ih =>
    have hl := h l (.head _)
    have hrest := ih fun l' hl' => h l' (.tail _ hl')
    have hsplit : unlines (l :: ls) = l ++ '\n' :: unlines ls := by simp [unlines]
    rw [hsplit, linesFrom_append hl.noFeed, hrest]
    exact congrArg (· :: ls) (dropReturn_eq_self hl.noReturn)

end Structurer.Text
