/-
**Words and lines.**

Texts are read as lists of characters.  A line is cut into words at its blanks, a text into lines
at its line feeds.
-/

import Structurer.Text.Blank

namespace Structurer.Text

/-! ### Words -/

def trimStart (cs : List Char) : List Char := cs.dropWhile isBlank

def trimEnd : List Char → List Char
  | [] => []
  | c :: cs =>
      match trimEnd cs with
      | [] => if isBlank c then [] else [c]
      | rest => c :: rest

def trim (cs : List Char) : List Char := trimEnd (trimStart cs)

/-- The first word of a text, and what follows it without the blanks in between. -/
def splitWord (cs : List Char) : List Char × List Char :=
  let cs := trimStart cs
  (cs.takeWhile (!isBlank ·), trimStart (cs.dropWhile (!isBlank ·)))

/-- A word in front of a list of words; an empty word is no word. -/
def consWord : List Char → List (List Char) → List (List Char)
  | [], ws => ws
  | w, ws => w :: ws

/-- The word that a text starts with, empty if it starts with a blank, and the words after it. -/
def cutWords : List Char → List Char × List (List Char)
  | [] => ([], [])
  | c :: cs =>
      let (w, ws) := cutWords cs
      if isBlank c then ([], consWord w ws) else (c :: w, ws)

/-- The words of a text: its maximal runs of characters that are not blank. -/
def words (cs : List Char) : List (List Char) :=
  let (w, ws) := cutWords cs
  consWord w ws

/-- What follows `head` in a text that starts with it. -/
def stripHead? : List Char → List Char → Option (List Char)
  | [], cs => some cs
  | _ :: _, [] => none
  | h :: hs, c :: cs => if h = c then stripHead? hs cs else none

theorem stripHead?_eq_some_iff {head cs rest : List Char} :
    stripHead? head cs = some rest ↔ cs = head ++ rest := by
  induction head generalizing cs with
  | nil => simp [stripHead?]
  | cons h hs ih =>
    cases cs with
    | nil => simp [stripHead?]
    | cons c cs =>
      by_cases e : h = c
      · simp [stripHead?, e, ih]
      · simp [stripHead?, e, Ne.symm e]

/-- A text cut at the first occurrence of a character, which belongs to neither part. -/
def splitAtChar? (d : Char) : List Char → Option (List Char × List Char)
  | [] => none
  | c :: cs =>
      if c = d then some ([], cs)
      else (splitAtChar? d cs).map fun (front, rest) => (c :: front, rest)

/-! ### Lines -/

/-- A line without the carriage return that its line feed came with. -/
def dropReturn : List Char → List Char
  | [] => []
  | ['\r'] => []
  | c :: cs => c :: dropReturn cs

/-- The lines of a text, where `line` is the part already read of the current one.  A line ends
with a line feed, which a carriage return may precede; what follows the last line feed is a line
unless it is empty. -/
def linesFrom : List Char → List Char → List (List Char)
  | [], [] => []
  | line, [] => [line.reverse]
  | line, c :: cs =>
      if c = '\n' then dropReturn line.reverse :: linesFrom [] cs else linesFrom (c :: line) cs

def lines (text : String) : List (List Char) := linesFrom [] text.toList

end Structurer.Text
