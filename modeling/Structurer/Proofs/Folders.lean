/-
**The files of a folder.**

A path that ends with the name of a file leads to that file in the folder that the rest of the path leads
to.  Which folder that is depends on the folders only, and stays the same when files are written or more
folders are made.  So what happens to one file of a folder can be told without following paths.
-/

import Structurer.Proofs.Fallible
import Structurer.Store.GraphStore

namespace Structurer.Files

open Fallible List String

variable {fs fs' : Files} {place q place' p : FilePlace} {name folder content path : String}
  {ps rest : List String}

/-! ### What is at a place -/

@[simp] theorem isFolder_setText : (fs.setText place content).isFolder q = fs.isFolder q := rfl

theorem lookup_insertText (texts : List (FilePlace × String)) :
    (insertText place content texts).lookup q = if q = place then some content else texts.lookup q := by
  induction texts with
  | nil =>
    rw [insertText, List.lookup_cons]
    cases h : q == place with
    | true => simp [eq_of_beq h]
    | false => simp [ne_of_beq_false h]
  | cons e texts ih =>
    obtain ⟨p, c⟩ := e
    rw [insertText]
    by_cases hp : p = place
    · subst hp
      rw [if_pos rfl, List.lookup_cons, List.lookup_cons]
      cases h : q == p with
      | true => simp [eq_of_beq h]
      | false => simp [ne_of_beq_false h]
    · rw [if_neg hp, List.lookup_cons, List.lookup_cons, ih]
      cases h : q == p with
      | true => simp [eq_of_beq h, hp]
      | false => rfl

theorem entryAt_of_folder (h : fs.isFolder place = true) : fs.entryAt place = .folder place := if_pos h

theorem entryAt_eq_text_iff :
    fs.entryAt place = .text place' content ↔
    place' = place ∧ fs.isFolder place = false ∧ fs.texts.lookup place = some content := by
  unfold entryAt
  cases hf : fs.isFolder place with
  | true => simp
  | false =>
    cases hl : fs.texts.lookup place with
    | none => simp
    | some c => simp [eq_comm]

theorem entryAt_cases (fs : Files) (place : FilePlace) :
    (fs.isFolder place = true ∧ fs.entryAt place = .folder place) ∨
    (∃ content, fs.isFolder place = false ∧ fs.texts.lookup place = some content ∧
      fs.entryAt place = .text place content) ∨
    (fs.isFolder place = false ∧ fs.texts.lookup place = none ∧ fs.entryAt place = .free place) := by
  unfold entryAt
  cases fs.isFolder place with
  | true => simp
  | false => cases fs.texts.lookup place <;> simp

theorem entryAt_setText (h : fs.isFolder place = false) :
    (fs.setText place content).entryAt q = if q = place then .text place content else fs.entryAt q := by
  unfold entryAt
  rw [isFolder_setText, setText, lookup_insertText]
  by_cases hq : q = place
  · subst hq
    simp [h]
  · simp [hq]

/-! ### Entering folders -/

def enter (fs : Files) : FilePlace → List String → Option FilePlace
  | place, [] => some place
  | place, part :: parts =>
    if part = "" ∨ part = "." then enter fs place parts
    else if part = ".." then enter fs place.dropLast parts
    else if part.utf8ByteSize > maxNameBytes then none
    else if fs.isFolder (place ++ [part]) then enter fs (place ++ [part]) parts
    else none

/-- The name of a file: one part of a path, which does not stay around. -/
structure IsName (name : String) : Prop where
  onePart : '/' ∉ name.toList
  named : name ≠ "" ∧ name ≠ "." ∧ name ≠ ".."

theorem enter_mono (h : ∀ q, fs.isFolder q = true → fs'.isFolder q = true)
    (he : fs.enter place ps = some p) : fs'.enter place ps = some p := by
  fun_induction enter fs place ps with
  | case1 => exact he
  | case2 place part ps hpart ih =>
    rw [enter, if_pos hpart]
    exact ih he
  | case3 place ps hpart ih =>
    rw [enter, if_neg hpart, if_pos rfl]
    exact ih he
  | case5 place part ps hpart hup hshort hfolder ih =>
    rw [enter, if_neg hpart, if_neg hup, if_neg hshort, if_pos (h _ hfolder)]
    exact ih he
  | case4 | case6 => cases he

theorem resolveFrom_concat (hn : IsName name) : ∀ {entry : FileEntry},
    fs.resolveFrom place (ps ++ [name]) = .ok entry ↔
      name.utf8ByteSize ≤ maxNameBytes ∧
        ∃ p, fs.enter place ps = some p ∧ entry = fs.entryAt (p ++ [name]) := by
  obtain ⟨_, hne, hstay, hup⟩ := id hn
  induction ps generalizing place with
  | nil =>
    intro entry
    rw [nil_append]
    unfold resolveFrom
    rw [if_neg (by simp [hne, hstay]), if_neg hup]
    by_cases hshort : name.utf8ByteSize ≤ maxNameBytes
    · rw [if_neg (by omega)]
      cases he : fs.entryAt (place ++ [name]) with
      | folder p => simp [resolveFrom, enter, hshort, he, eq_comm]
      | text p c => simp [enter, hshort, he, eq_comm]
      | free p => simp [enter, hshort, he, eq_comm]
    · rw [if_pos (by omega)]
      simp [hshort]
  | cons part ps ih =>
    intro entry
    rw [cons_append]
    unfold resolveFrom enter
    split
    next => exact ih
    next =>
      split
      next => exact ih
      next =>
        split
        next => simp
        next =>
          rcases fs.entryAt_cases (place ++ [part]) with ⟨hf, he⟩ | ⟨c, hf, _, he⟩ | ⟨hf, _, he⟩
          · rw [he, if_pos hf]
            exact ih
          · simp [he, hf]
          · simp [he, hf]

/-! ### The path of a file -/

def folderParts (folder : String) : List String :=
  if folder.isEmpty then [] else if folder.endsWith "/" then (parts folder).dropLast else parts folder

def home (fs : Files) (folder : String) : Option FilePlace :=
  fs.enter (fs.start folder) (folderParts folder)

theorem home_setText (hp : fs.home folder = some p) :
    (fs.setText place content).home folder = some p := by
  have hsame : ∀ q, fs.isFolder q = true → (fs.setText place content).isFolder q = true := fun _ hq => hq
  exact enter_mono hsame hp

theorem parts_append_slash (front rest : String) :
    parts (front ++ "/" ++ rest) = parts front ++ parts rest := by
  have h : (front ++ "/" ++ rest).toList = front.toList ++ '/' :: rest.toList := by simp
  rw [parts, h, splitOn_append_cons_self, map_append]
  rfl

theorem parts_slash (front : String) : parts (front ++ "/") = parts front ++ [""] := by
  have h := parts_append_slash front ""
  rwa [append_empty] at h

theorem endsWith_slash_iff : path.endsWith "/" = true ↔ ∃ front, path = front ++ "/" := by
  rw [← endsWith_toSlice, Slice.endsWith_string_iff, copy_toSlice]
  constructor
  · rintro ⟨front, h⟩
    exact ⟨String.ofList front, toList_inj.1 (by simpa using h.symm)⟩
  · rintro ⟨front, rfl⟩
    exact ⟨front.toList, by simp⟩

section

variable (hn : IsName name)

include hn

theorem parts_name : parts name = [name] := by
  rw [parts, splitOn_eq_singleton hn.onePart]
  simp

theorem not_startsWith_slash : ¬ name.startsWith "/" = true := by
  rw [startsWith_string_iff]
  rintro ⟨rest, h⟩
  refine hn.onePart ?_
  rw [← h]
  simp

theorem parts_join :
    parts (GraphStore.join folder name) = folderParts folder ++ [name] := by
  have hname := not_startsWith_slash hn
  unfold GraphStore.join folderParts
  rw [if_neg hname]
  by_cases hempty : folder.isEmpty = true
  · rw [if_pos (by simp [hempty]), if_pos hempty, isEmpty_iff.1 hempty, empty_append,
      parts_name hn]
    rfl
  · rw [if_neg hempty]
    by_cases hslash : folder.endsWith "/" = true
    · obtain ⟨front, rfl⟩ := endsWith_slash_iff.1 hslash
      rw [if_pos (by simp [hslash]), if_pos hslash, parts_append_slash, parts_slash,
        dropLast_concat, parts_name hn]
    · rw [if_neg (by simp [hempty, hslash]), if_neg hslash, parts_append_slash, parts_name hn]

theorem toList_join (folder : String) : ∃ between : List Char,
    (GraphStore.join folder name).toList = folder.toList ++ between ++ name.toList ∧
      (folder = "" → between = []) := by
  have hname : ¬ name.startsWith "/" = true := not_startsWith_slash hn
  unfold GraphStore.join
  rw [if_neg hname]
  split
  next => exact ⟨[], by simp, fun _ => rfl⟩
  next h =>
    refine ⟨['/'], by simp, fun hempty => ?_⟩
    simp [hempty] at h

theorem resolve_join_iff {entry : FileEntry} :
    fs.resolve (GraphStore.join folder name) = .ok entry ↔ name.utf8ByteSize ≤ maxNameBytes ∧
      ∃ p, fs.home folder = some p ∧ entry = fs.entryAt (p ++ [name]) := by
  obtain ⟨between, hjoin, hbetween⟩ := toList_join hn folder
  have hnonempty : (GraphStore.join folder name).isEmpty = false := by
    rw [Bool.eq_false_iff]
    intro h
    rw [isEmpty_iff.1 h] at hjoin
    have hname : name.toList = [] := (append_eq_nil_iff.1 hjoin.symm).2
    exact hn.named.1 (toList_eq_nil_iff.1 hname)
  have hroot : (GraphStore.join folder name).startsWith "/" = folder.startsWith "/" := by
    rw [Bool.eq_iff_iff, startsWith_string_iff, startsWith_string_iff, hjoin]
    cases hf : folder.toList with
    | nil =>
      have hfolder := toList_eq_nil_iff.1 hf
      rw [hbetween hfolder]
      have hname := not_startsWith_slash hn
      rw [startsWith_string_iff] at hname
      simpa using hname
    | cons c cs => simp
  unfold resolve home start
  rw [hnonempty, hroot, parts_join hn]
  exact resolveFrom_concat hn

/-! ### Reading and writing -/

theorem resolve_join_bind {α : Type} {k : FileEntry → Except FileError α} {a : α} :
    (fs.resolve (GraphStore.join folder name) >>= k) = .ok a ↔ name.utf8ByteSize ≤ maxNameBytes ∧
      ∃ p, fs.home folder = some p ∧ k (fs.entryAt (p ++ [name])) = .ok a := by
  rw [bind_eq_ok_iff]
  constructor
  · rintro ⟨entry, hentry, h⟩
    obtain ⟨hshort, p, hp, rfl⟩ := (resolve_join_iff hn).1 hentry
    exact ⟨hshort, p, hp, h⟩
  · rintro ⟨hshort, p, hp, h⟩
    exact ⟨_, (resolve_join_iff hn).2 ⟨hshort, p, hp, rfl⟩, h⟩

theorem read_join_iff :
    fs.read (GraphStore.join folder name) = .ok content ↔ name.utf8ByteSize ≤ maxNameBytes ∧
      ∃ p, fs.home folder = some p ∧ fs.entryAt (p ++ [name]) = .text (p ++ [name]) content := by
  unfold read
  rw [resolve_join_bind hn]
  refine and_congr_right fun _ => exists_congr fun p => and_congr_right fun _ => ?_
  rcases fs.entryAt_cases (p ++ [name]) with ⟨_, he⟩ | ⟨c, _, _, he⟩ | ⟨_, _, he⟩ <;>
    simp [he, pure, Except.pure]

theorem withoutSlashes_join :
    withoutSlashes (GraphStore.join folder name) = GraphStore.join folder name := by
  obtain ⟨between, hjoin, _⟩ := toList_join hn folder
  rw [withoutSlashes, hjoin, reverse_append]
  have hlast : ∃ c cs, name.toList.reverse = c :: cs ∧ c ≠ '/' := by
    cases hr : name.toList.reverse with
    | nil => exact absurd (toList_eq_nil_iff.1 (reverse_eq_nil_iff.1 hr)) hn.named.1
    | cons c cs =>
      refine ⟨c, cs, rfl, ?_⟩
      rintro rfl
      exact hn.onePart (mem_reverse.1 (hr ▸ .head _))
  obtain ⟨c, cs, hr, hc⟩ := hlast
  rw [hr, cons_append, dropWhile_cons, if_neg (by simpa using hc), ← cons_append, ← hr,
    ← reverse_append, reverse_reverse, ← hjoin, ofList_toList]

theorem write_join :
    fs.write (GraphStore.join folder name) content = .ok fs' ↔ name.utf8ByteSize ≤ maxNameBytes ∧
      ∃ p, fs.home folder = some p ∧ fs.isFolder (p ++ [name]) = false ∧
        fs' = fs.setText (p ++ [name]) content := by
  unfold write
  rw [withoutSlashes_join hn]
  simp only [ne_eq, not_true_eq_false, if_false, resolve_join_bind hn]
  refine and_congr_right fun _ => exists_congr fun p => and_congr_right fun _ => ?_
  rcases fs.entryAt_cases (p ++ [name]) with ⟨hf, he⟩ | ⟨c, hf, _, he⟩ | ⟨hf, _, he⟩ <;>
    simp [he, hf, pure, Except.pure, eq_comm]

theorem append_join :
    fs.append (GraphStore.join folder name) content = .ok fs' ↔ name.utf8ByteSize ≤ maxNameBytes ∧
      ∃ p old, fs.home folder = some p ∧ fs.entryAt (p ++ [name]) = .text (p ++ [name]) old ∧
        fs' = fs.setText (p ++ [name]) (old ++ content) := by
  unfold append
  rw [resolve_join_bind hn]
  refine and_congr_right fun _ => exists_congr fun p => ?_
  rcases fs.entryAt_cases (p ++ [name]) with ⟨_, he⟩ | ⟨old, _, _, he⟩ | ⟨_, _, he⟩ <;>
    simp [he, pure, Except.pure, eq_comm]

end

/-! ### Making folders -/

/-- A file system with the same files and more folders, none of which stands in the place of a file. -/
structure Widened (fs fs' : Files) : Prop where
  texts : fs'.texts = fs.texts
  folders : ∀ q, fs.isFolder q = true → fs'.isFolder q = true
  free : ∀ q, fs'.isFolder q = true → fs.isFolder q = true ∨ fs.texts.lookup q = none

theorem Widened.refl (fs : Files) : Widened fs fs := ⟨rfl, fun _ h => h, fun _ h => .inl h⟩

theorem Widened.trans {fs'' : Files} (h : Widened fs fs') (h' : Widened fs' fs'') : Widened fs fs'' where
  texts := h'.texts.trans h.texts
  folders q hq := h'.folders q (h.folders q hq)
  free q hq := by
    rcases h'.free q hq with hq | hq
    · exact h.free q hq
    · exact .inr (h.texts ▸ hq)

theorem Widened.entryAt_eq_text_iff (h : Widened fs fs') :
    fs'.entryAt place = .text place' content ↔ fs.entryAt place = .text place' content := by
  rw [Files.entryAt_eq_text_iff, Files.entryAt_eq_text_iff, h.texts]
  refine and_congr_right fun _ => and_congr_left fun hl => ?_
  rw [Bool.eq_false_iff, Bool.eq_false_iff]
  refine ⟨fun hf hq => hf (h.folders _ hq), fun hf hq => ?_⟩
  rcases h.free _ hq with hq | hq
  · exact hf hq
  · rw [hl] at hq
    cases hq

theorem widened_folder (h : fs.texts.lookup place = none) :
    Widened fs { fs with folders := place :: fs.folders } := by
  refine ⟨rfl, fun q hq => ?_, fun q hq => ?_⟩
  · simp only [isFolder, Bool.or_eq_true, contains_iff_mem, mem_cons] at hq ⊢
    exact hq.imp_right .inr
  · simp only [isFolder, Bool.or_eq_true, contains_iff_mem, mem_cons] at hq ⊢
    rcases hq with hq | rfl | hq
    · exact .inl (.inl hq)
    · exact .inr h
    · exact .inl (.inr hq)

theorem widened_makeFrom (h : fs.makeFrom place ps = .ok fs') : Widened fs fs' := by
  fun_induction makeFrom fs place ps with
  | case1 =>
    cases h
    exact .refl _
  | case2 _ _ _ _ _ ih | case3 _ _ _ _ ih | case5 _ _ _ _ _ _ _ _ _ ih => exact ih h
  | case4 | case6 => cases h
  | case7 fs place part ps _ _ _ place' hfree ih =>
    have hnone : fs.texts.lookup place' = none := by
      rcases fs.entryAt_cases (place ++ [part]) with ⟨_, he⟩ | ⟨_, _, _, he⟩ | ⟨_, hl, he⟩
      all_goals cases he.symm.trans hfree
      exact hl
    exact (widened_folder hnone).trans (ih h)

theorem widened_make (h : fs.make folder = .ok fs') : Widened fs fs' := by
  unfold make at h
  split at h
  next =>
    cases h
    exact .refl _
  next => exact widened_makeFrom h

theorem makeFrom_of_enter (h : fs.enter place ps = some p) (hrest : rest = [] ∨ rest = [""]) :
    fs.makeFrom place (ps ++ rest) = .ok fs := by
  fun_induction enter fs place ps with
  | case1 => rcases hrest with rfl | rfl <;> simp [makeFrom]
  | case2 place part ps hpart ih =>
    rw [cons_append, makeFrom, if_pos hpart]
    exact ih h
  | case3 place ps hpart ih =>
    rw [cons_append, makeFrom, if_neg hpart, if_pos rfl]
    exact ih h
  | case5 place part ps hpart hup hshort hfolder ih =>
    rw [cons_append, makeFrom, if_neg hpart, if_neg hup, if_neg hshort, entryAt_of_folder hfolder]
    exact ih h
  | case4 | case6 => cases h

theorem make_of_home (h : fs.home folder = some p) : fs.make folder = .ok fs := by
  unfold home at h
  unfold make
  split
  next => rfl
  next hempty =>
    rw [folderParts, if_neg hempty] at h
    split at h
    next hslash =>
      obtain ⟨front, hfront⟩ := endsWith_slash_iff.1 hslash
      rw [hfront, parts_slash, dropLast_concat, ← hfront] at h
      rw [hfront, parts_slash, ← hfront]
      exact makeFrom_of_enter h (.inr rfl)
    next =>
      have hmake := makeFrom_of_enter h (.inl rfl)
      rwa [append_nil] at hmake

end Structurer.Files
