/-
**Cutting texts into words.**

What the functions that read words do on texts put together from words and blanks: blanks in front
and behind do not matter, a word ends at the first blank, and what is cut off is what was put in.
-/

import Structurer.Text.Words

namespace Structurer.Text

open List

variable {b w cs rest front : List Char} {c : Char} {ws : List (List Char)}

def Blank (cs : List Char) : Prop := ∀ c ∈ cs, isBlank c = true

instance (cs : List Char) : Decidable (Blank cs) := decidable_of_iff _ all_eq_true

/-- A word: at least one character, and none of them blank. -/
structure IsWord (cs : List Char) : Prop where
  nonempty : cs ≠ []
  noBlank : ∀ c ∈ cs, isBlank c = false

instance (cs : List Char) : Decidable (IsWord cs) :=
  decidable_of_iff (cs ≠ [] ∧ cs.all (!isBlank ·) = true)
    ⟨fun h => ⟨h.1, by simpa using h.2⟩, fun h => ⟨h.nonempty, by simpa using h.noBlank⟩⟩

def Apart (cs : List Char) : Prop := cs.head?.all isBlank = true

theorem Apart.nil : Apart [] := rfl

theorem Blank.apart (h : Blank b) (hb : b ≠ []) : Apart (b ++ rest) := by
  cases b with
  | nil => exact absurd rfl hb
  | cons c b => simpa [Apart] using h c (.head _)

/-! ### Blanks at the ends -/

theorem trimStart_blank (h : Blank b) : trimStart (b ++ cs) = trimStart cs :=
  dropWhile_append_of_pos h

theorem trimStart_word (h : IsWord w) : trimStart (w ++ cs) = w ++ cs := by
  cases w with
  | nil => exact absurd rfl h.nonempty
  | cons c w => simp [trimStart, h.noBlank c]

@[simp] theorem trimStart_trimStart (cs : List Char) : trimStart (trimStart cs) = trimStart cs := by
  induction cs with
  | nil => rfl
  | cons c cs ih =>
    by_cases hc : isBlank c = true
    · simpa [trimStart, hc] using ih
    · simp [trimStart, hc]

theorem trimEnd_append : trimEnd (front ++ rest) =
    if trimEnd rest = [] then trimEnd front else front ++ trimEnd rest := by
  induction front with
  | nil =>
    by_cases h : trimEnd rest = []
    · simp [h, trimEnd]
    · simp [h]
  | cons c front ih =>
    rw [cons_append, trimEnd, ih]
    by_cases h : trimEnd rest = []
    · simp only [h, if_true, trimEnd]
    · rw [if_neg h, if_neg h]
      cases front with
      | nil => cases hr : trimEnd rest <;> simp_all
      | cons d front => rfl

theorem trimEnd_eq_nil_iff : trimEnd cs = [] ↔ Blank cs := by
  induction cs with
  | nil => simp [trimEnd, Blank]
  | cons c cs ih =>
    rw [trimEnd]
    cases h : trimEnd cs with
    | nil =>
      have hblank : Blank cs := ih.1 h
      by_cases hc : isBlank c = true
      · simpa [hc, Blank] using hblank
      · simp [hc, Blank]
    | cons d ds =>
      have hblank : ¬ Blank cs := fun hcs => by simp [ih.2 hcs] at h
      simp only [Blank, mem_cons, forall_eq_or_imp, not_and, cons_ne_nil, false_iff]
      exact fun _ => hblank

theorem trimEnd_eq_self_of_last (h : isBlank c = false) :
    trimEnd (front ++ [c]) = front ++ [c] := by
  rw [trimEnd_append]
  simp [trimEnd, h]

theorem trimEnd_word (h : IsWord w) : trimEnd (front ++ w) = front ++ w := by
  obtain ⟨init, c, rfl⟩ : ∃ init c, w = init ++ [c] :=
    ⟨w.dropLast, w.getLast h.nonempty, (dropLast_concat_getLast h.nonempty).symm⟩
  rw [← append_assoc]
  exact trimEnd_eq_self_of_last (h.noBlank c (by simp))

theorem trim_blank (h : Blank b) : trim (b ++ cs) = trim cs := by
  rw [trim, trimStart_blank h, trim]

theorem trim_word (h : IsWord w) : trim (w ++ rest) = w ++ trimEnd rest := by
  have hw : trimEnd ([] ++ w) = [] ++ w := trimEnd_word h
  rw [nil_append] at hw
  rw [trim, trimStart_word h, trimEnd_append, hw]
  split
  · simp_all
  · rfl

theorem length_trimEnd_le (cs : List Char) : (trimEnd cs).length ≤ cs.length := by
  induction cs with
  | nil => simp [trimEnd]
  | cons c cs ih =>
    rw [trimEnd]
    cases hcs : trimEnd cs with
    | nil => by_cases hc : isBlank c = true <;> simp [hc]
    | cons d ds => simpa [hcs] using ih

theorem trimStart_and_trimEnd_eq_self (h : trim cs = cs) : trimStart cs = cs ∧ trimEnd cs = cs := by
  have hsuffix : trimStart cs <:+ cs := dropWhile_suffix _
  have hlength : cs.length ≤ (trimStart cs).length := by
    have hend := length_trimEnd_le (trimStart cs)
    rw [← trim, h] at hend
    exact hend
  have hstart : trimStart cs = cs := hsuffix.eq_of_length (Nat.le_antisymm hsuffix.length_le hlength)
  refine ⟨hstart, ?_⟩
  rwa [trim, hstart] at h

theorem isBlank_getLast? (h : trimEnd cs = cs) (hc : cs.getLast? = some c) : isBlank c = false := by
  obtain ⟨front, rfl⟩ := getLast?_eq_some_iff.1 hc
  cases hblank : isBlank c with
  | false => rfl
  | true =>
    have hlength := length_trimEnd_le front
    have hdrop : trimEnd (front ++ [c]) = trimEnd front := by
      rw [trimEnd_append]
      simp [trimEnd, hblank]
    rw [← hdrop, h, length_append, length_singleton] at hlength
    omega

/-! ### The first word -/

theorem takeWhile_word (h : IsWord w) (hrest : Apart rest) :
    (w ++ rest).takeWhile (!isBlank ·) = w ∧ (w ++ rest).dropWhile (!isBlank ·) = rest := by
  have hw : ∀ c ∈ w, (!isBlank c) = true := fun c hc => by simp [h.noBlank c hc]
  rw [takeWhile_append_of_pos hw, dropWhile_append_of_pos hw]
  cases rest with
  | nil => simp
  | cons c rest =>
    have hc : isBlank c = true := by simpa [Apart] using hrest
    simp [hc]

theorem splitWord_word (hb : Blank b) (h : IsWord w) (hrest : Apart rest) :
    splitWord (b ++ (w ++ rest)) = (w, trimStart rest) := by
  have htext : trimStart (b ++ (w ++ rest)) = w ++ rest := by
    rw [trimStart_blank hb, trimStart_word h]
  obtain ⟨htake, hdrop⟩ := takeWhile_word h hrest
  rw [splitWord, htext, htake, hdrop]

theorem splitWord_alone (h : IsWord w) : splitWord w = (w, []) := by
  have hword := splitWord_word (b := []) (by simp [Blank]) h Apart.nil
  simpa [trimStart] using hword

theorem exists_blank_append (cs : List Char) : ∃ b, Blank b ∧ cs = b ++ trimStart cs :=
  ⟨cs.takeWhile isBlank, fun c hc => all_eq_true.1 all_takeWhile c hc,
    takeWhile_append_dropWhile.symm⟩

theorem trimStart_eq_nil_iff : trimStart cs = [] ↔ Blank cs := by
  constructor
  · intro h
    obtain ⟨b, hb, hcs⟩ := exists_blank_append cs
    rwa [hcs, h, append_nil]
  · intro h
    have hnone : trimStart (cs ++ []) = trimStart [] := trimStart_blank h
    rwa [append_nil] at hnone

theorem trim_eq_nil_iff : trim cs = [] ↔ Blank cs := by
  rw [trim, trimEnd_eq_nil_iff, ← trimStart_eq_nil_iff, trimStart_trimStart, trimStart_eq_nil_iff]

theorem trimStart_append :
    trimStart (cs ++ rest) = if trimStart cs = [] then trimStart rest else trimStart cs ++ rest := by
  simp only [trimStart, dropWhile_append, List.isEmpty_iff]
  congr

theorem Apart.exists_blank (h : Apart cs) (hne : trimStart cs ≠ []) :
    ∃ b, b ≠ [] ∧ Blank b ∧ cs = b ++ trimStart cs := by
  obtain ⟨b, hb, hcs⟩ := exists_blank_append cs
  refine ⟨b, ?_, hb, hcs⟩
  rintro rfl
  cases cs with
  | nil => exact hne rfl
  | cons c cs =>
    have hc : isBlank c = true := by simpa [Apart] using h
    have hlength := congrArg List.length hcs
    have hle : (trimStart cs).length ≤ cs.length := (dropWhile_suffix isBlank).length_le
    simp only [trimStart, dropWhile_cons, hc, if_true, nil_append, length_cons] at hlength
    rw [trimStart] at hle
    omega

theorem splitWord_cases (cs : List Char) : (Blank cs ∧ splitWord cs = ([], [])) ∨
    ∃ b w tail, Blank b ∧ IsWord w ∧ Apart tail ∧ cs = b ++ (w ++ tail) ∧
      splitWord cs = (w, trimStart tail) := by
  obtain ⟨b, hb, hcs⟩ := exists_blank_append cs
  cases htext : trimStart cs with
  | nil => exact .inl ⟨trimStart_eq_nil_iff.1 htext, by rw [splitWord, htext]; rfl⟩
  | cons c text =>
    have hc : isBlank c = false := by
      have hhead := head?_dropWhile_not isBlank cs
      rw [← trimStart, htext] at hhead
      simpa using hhead
    refine .inr ⟨b, (c :: text).takeWhile (!isBlank ·), (c :: text).dropWhile (!isBlank ·), hb,
      ⟨by simp [hc], fun d hd => ?_⟩, ?_, ?_, ?_⟩
    · simpa using all_eq_true.1 all_takeWhile d hd
    · have hhead := head?_dropWhile_not (!isBlank ·) (c :: text)
      rw [Apart]
      revert hhead
      cases ((c :: text).dropWhile (!isBlank ·)).head? <;> simp
    · rw [takeWhile_append_dropWhile, ← htext]
      exact hcs
    · rw [splitWord, htext]

/-! ### All words -/

theorem words_eq (cs : List Char) : words cs = consWord (cutWords cs).1 (cutWords cs).2 := rfl

theorem cutWords_word (h : ∀ c ∈ w, isBlank c = false) :
    cutWords (w ++ rest) = (w ++ (cutWords rest).1, (cutWords rest).2) := by
  induction w with
  | nil => rfl
  | cons c w ih =>
    have hc : isBlank c = false := h c (.head _)
    rw [cons_append, cutWords, ih fun c' hc' => h c' (.tail _ hc')]
    simp [hc]

theorem cutWords_apart (h : Apart rest) : (cutWords rest).1 = [] := by
  cases rest with
  | nil => rfl
  | cons c rest =>
    have hc : isBlank c = true := by simpa [Apart] using h
    simp [cutWords, hc]

theorem words_blank (h : Blank b) : words (b ++ cs) = words cs := by
  induction b with
  | nil => rfl
  | cons c b ih =>
    have hc : isBlank c = true := h c (.head _)
    rw [← ih fun c' hc' => h c' (.tail _ hc')]
    simp [words, cutWords, hc, consWord]

theorem words_word (h : IsWord w) (hrest : Apart rest) : words (w ++ rest) = w :: words rest := by
  have hcut : words rest = (cutWords rest).2 := by
    rw [words_eq, cutWords_apart hrest, consWord]
  rw [words_eq, cutWords_word h.noBlank, cutWords_apart hrest, append_nil, hcut]
  cases w with
  | nil => exact absurd rfl h.nonempty
  | cons c w => rfl

theorem words_alone (h : IsWord w) : words w = [w] := by
  simpa [words, cutWords, consWord] using words_word h Apart.nil

theorem cutWords_trimEnd : cutWords (trimEnd cs) = cutWords cs := by
  induction cs with
  | nil => rfl
  | cons c cs ih =>
    rw [trimEnd]
    cases h : trimEnd cs with
    | nil =>
      rw [h] at ih
      by_cases hc : isBlank c = true
      · simp [hc, cutWords, ← ih, consWord]
      · simp [hc, cutWords, ← ih]
    | cons d ds =>
      rw [h] at ih
      show cutWords (c :: d :: ds) = cutWords (c :: cs)
      rw [cutWords, ih, ← cutWords]

@[simp] theorem words_trimEnd : words (trimEnd cs) = words cs := by
  rw [words, cutWords_trimEnd, words]

@[simp] theorem words_trimStart : words (trimStart cs) = words cs := by
  obtain ⟨b, hb, hcs⟩ := exists_blank_append cs
  calc words (trimStart cs) = words (b ++ trimStart cs) := (words_blank hb).symm
    _ = words cs := by rw [← hcs]

theorem words_eq_splitWord (cs : List Char) :
    words cs = consWord (splitWord cs).1 (words (splitWord cs).2) := by
  rcases splitWord_cases cs with ⟨hblank, hsplit⟩ | ⟨b, w, tail, hb, hw, htail, hcs, hsplit⟩
  · have hnone : words (cs ++ []) = words [] := words_blank hblank
    rw [append_nil] at hnone
    rw [hnone, hsplit]
    rfl
  · rw [hsplit, words_trimStart, hcs, words_blank hb, words_word hw htail]
    cases w with
    | nil => exact absurd rfl hw.nonempty
    | cons c w => rfl

theorem exists_of_words (h : words cs = w :: ws) :
    ∃ b tail, Blank b ∧ IsWord w ∧ Apart tail ∧ cs = b ++ (w ++ tail) ∧ words tail = ws := by
  rcases splitWord_cases cs with ⟨hblank, -⟩ | ⟨b, w', tail, hb, hw, htail, rfl, -⟩
  · have hnone : words (cs ++ []) = words [] := words_blank hblank
    rw [append_nil, h] at hnone
    cases hnone
  · rw [words_blank hb, words_word hw htail] at h
    cases h
    exact ⟨b, tail, hb, hw, htail, rfl, rfl⟩

theorem splitWord_of_words (h : words cs = w :: ws) :
    ∃ rest, splitWord cs = (w, rest) ∧ words rest = ws := by
  obtain ⟨b, tail, hb, hw, htail, rfl, hws⟩ := exists_of_words h
  exact ⟨_, splitWord_word hb hw htail, by rwa [words_trimStart]⟩

theorem flatten_consWord (ws : List (List Char)) : (consWord w ws).flatten = w ++ ws.flatten := by
  cases w <;> rfl

theorem flatten_words (cs : List Char) : (words cs).flatten = cs.filter (!isBlank ·) := by
  rw [words_eq, flatten_consWord]
  induction cs with
  | nil => rfl
  | cons c cs ih =>
    by_cases hc : isBlank c = true
    · simp [cutWords, hc, flatten_consWord, ih]
    · simp [cutWords, hc, ih]

theorem blank_of_words (h : words cs = []) : Blank cs := by
  have hfilter := flatten_words cs
  rw [h] at hfilter
  intro c hc
  simpa using filter_eq_nil_iff.1 hfilter.symm c hc

/-! ### Cutting at a character -/

theorem splitAtChar?_eq_some_iff {d : Char} :
    splitAtChar? d cs = some (front, rest) ↔ d ∉ front ∧ cs = front ++ d :: rest := by
  induction cs generalizing front with
  | nil => simp [splitAtChar?]
  | cons c cs ih =>
    by_cases hc : c = d
    · subst hc
      cases front with
      | nil => simp [splitAtChar?, eq_comm]
      | cons a front =>
        simp only [splitAtChar?, if_true, Option.some.injEq, Prod.mk.injEq, mem_cons, not_or,
          cons_append, List.cons.injEq]
        exact ⟨fun h => absurd h.1 (by simp), fun h => absurd h.2.1 h.1.1⟩
    · cases front with
      | nil => simp [splitAtChar?, hc]
      | cons a front =>
        simp only [splitAtChar?, if_neg hc, Option.map_eq_some_iff, Prod.exists, Prod.mk.injEq,
          List.cons.injEq, mem_cons, not_or, cons_append]
        constructor
        · rintro ⟨_, _, h, ⟨rfl, rfl⟩, rfl⟩
          obtain ⟨hfront, rfl⟩ := ih.1 h
          exact ⟨⟨Ne.symm hc, hfront⟩, rfl, rfl⟩
        · rintro ⟨⟨_, hfront⟩, rfl, rfl⟩
          exact ⟨front, rest, ih.2 ⟨hfront, rfl⟩, ⟨rfl, rfl⟩, rfl⟩

theorem stripHead?_append : stripHead? front (front ++ rest) = some rest :=
  stripHead?_eq_some_iff.2 rfl

end Structurer.Text
