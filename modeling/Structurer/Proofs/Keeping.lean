/-
**Keeping a graph.**

The store need not read a file again once it has met it, since the lines it remembers are those of the
file.  What makes that work: the name of a method has a point and its mangled name has none, no line of a
dump is taken for the name of a method, and all lines end with a line feed.
-/

import Mathlib.Logic.Basic
import Mathlib.Tactic.ByContra
import Structurer.Proofs.Folders
import Structurer.Proofs.Lines

namespace Structurer.GraphStore

open Fallible Text List String

variable {s s' : GraphStore} {fs fs' fs₁ : Files} {f g : Fallback} {fp line text : String}
  {lines lines' seen ls : List String} {l : List Fallback} {p : FilePlace}

/-! ### What a call does -/

def fileLines (fs : Files) (path : String) : List String :=
  ((fs.read path).toOption.map fun text => (Text.lines text).map ofList).getD []

def linesIn (s : GraphStore) (fs : Files) (fp : String) : List String :=
  (s.known.lookup fp).getD (fileLines fs (s.path fp))

def names (f : Fallback) : List String := [f.signature.display, f.signature.mangled]

/-- A graph is kept in a folder, where the lines of its file are `lines`: the lines that are in it
afterwards, and the files. -/
inductive Saves (folder : String) (lines : List String) (fs : Files) (f : Fallback) :
    List String → Files → Prop where
  | first {fs₁ fs₂ : Files} (hlines : lines = []) (hmake : fs.make folder = .ok fs₁)
      (hwrite : fs₁.write (join folder (f.fingerprint ++ ".txt")) (firstText f) = .ok fs₂) :
      Saves folder lines fs f (names f ++ f.dump) fs₂
  | again (hlines : lines ≠ []) (hname : f.signature.display ∈ lines) : Saves folder lines fs f lines fs
  | later {fs₁ : Files} (hlines : lines ≠ []) (hname : f.signature.display ∉ lines)
      (hwrite : fs.append (join folder (f.fingerprint ++ ".txt")) (laterText f) = .ok fs₁) :
      Saves folder lines fs f (names f ++ lines) fs₁

theorem run_linesOf :
    (s.linesOf fp : StateM Files (List String)).run fs = (s.linesIn fs fp, fs) := by
  unfold linesOf linesIn fileLines
  cases s.known.lookup fp with
  | some lines => rfl
  | none =>
    have hread : (MonadFiles.readText (s.path fp) : StateM Files _).run fs = (fs.read (s.path fp), fs) :=
      rfl
    simp only [StateT.run_bind, hread]
    cases fs.read (s.path fp) <;> rfl

theorem run_update_eq_ok_iff {change : Files → Except FileError Files} :
    (Files.update change).run fs = (.ok (), fs') ↔ change fs = .ok fs' := by
  have hrun : ∀ step : Files → Except FileError Unit × Files,
      (modifyGet step : StateM Files _).run fs = step fs := fun _ => rfl
  rw [Files.update, hrun]
  cases change fs with
  | error e => exact iff_of_false (fun h => by cases h) fun h => by cases h
  | ok fs₁ => exact ⟨fun h => by cases h; rfl, fun h => by cases h; rfl⟩

theorem run_bind_eq_ok_iff {α : Type} {x : StateM Files (Except FileError Unit)}
    {k : Except FileError Unit → StateM Files α} {a : α}
    (herror : ∀ e fs₁, (k (.error e)).run fs₁ ≠ (a, fs')) :
    (x >>= k).run fs = (a, fs') ↔ ∃ fs₁, x.run fs = (.ok (), fs₁) ∧ (k (.ok ())).run fs₁ = (a, fs') := by
  rw [StateT.run_bind]
  cases hx : x.run fs with
  | mk r fs₁ =>
    cases r with
    | error e =>
      refine iff_of_false (herror e fs₁) ?_
      rintro ⟨_, h, _⟩
      cases h
    | ok u =>
      refine ⟨fun h => ⟨fs₁, rfl, h⟩, ?_⟩
      rintro ⟨_, ⟨⟩, h⟩
      exact h

theorem run_writeFirst_eq_ok_iff : (s.writeFirst f : StateM Files _).run fs = (.ok (), fs') ↔
    ∃ fs₁, fs.make s.folder = .ok fs₁ ∧ fs₁.write (s.path f.fingerprint) (firstText f) = .ok fs' := by
  unfold writeFirst
  rw [run_bind_eq_ok_iff fun e fs₁ h => by cases h]
  exact exists_congr fun fs₁ => and_congr run_update_eq_ok_iff run_update_eq_ok_iff

theorem remember_remember (s : GraphStore) (fp : String) (lines lines' : List String) :
    (s.remember fp lines).remember fp lines' = s.remember fp lines' := by
  simp [remember, filter_filter]

theorem save_eq_ok_iff : (s.save f : StateM Files _).run fs = ((.ok (), s'), fs') ↔
    ∃ lines', Saves s.folder (s.linesIn fs f.fingerprint) fs f lines' fs' ∧
      s' = s.remember f.fingerprint lines' := by
  unfold save
  rw [StateT.run_bind, run_linesOf]
  generalize s.linesIn fs f.fingerprint = lines
  show StateT.run (ite _ _ _) fs = _ ↔ _
  by_cases hlines : lines = []
  · rw [if_pos (by simp [hlines]), run_bind_eq_ok_iff fun e fs₁ h => by cases h]
    constructor
    · rintro ⟨_, hrun, ⟨⟩⟩
      obtain ⟨fs₁, hmake, hwrite⟩ := run_writeFirst_eq_ok_iff.1 hrun
      exact ⟨_, .first hlines hmake hwrite, remember_remember ..⟩
    · rintro ⟨_, hsaves, rfl⟩
      cases hsaves with
      | first _ hmake hwrite =>
        refine ⟨_, run_writeFirst_eq_ok_iff.2 ⟨_, hmake, hwrite⟩, ?_⟩
        rw [remember_remember]
        rfl
      | again h | later h => exact absurd hlines h
  · rw [if_neg (by simpa using hlines)]
    by_cases hname : f.signature.display ∈ lines
    · rw [if_pos hname]
      constructor
      · rintro ⟨⟩
        exact ⟨_, .again hlines hname, rfl⟩
      · rintro ⟨_, hsaves, rfl⟩
        cases hsaves with
        | first h => exact absurd h hlines
        | again => rfl
        | later _ h => exact absurd hname h
    · rw [if_neg hname, run_bind_eq_ok_iff fun e fs₁ h => by cases h]
      constructor
      · rintro ⟨_, hrun, ⟨⟩⟩
        exact ⟨_, .later hlines hname (run_update_eq_ok_iff.1 hrun), remember_remember ..⟩
      · rintro ⟨_, hsaves, rfl⟩
        cases hsaves with
        | first h => exact absurd h hlines
        | again _ h => exact absurd h hname
        | later _ _ hwrite =>
          refine ⟨_, run_update_eq_ok_iff.2 hwrite, ?_⟩
          rw [remember_remember]
          rfl

/-! ### What a file should hold -/

/-- The first method of every name that is not among those already seen. -/
def newcomers (seen : List String) : List Fallback → List Fallback
  | [] => []
  | f :: rest =>
    if f.signature.display ∈ seen then newcomers seen rest
    else f :: newcomers (f.signature.display :: seen) rest

/-- The lines of a file in which some methods were kept, in this order: the names of the first one and the
dump of its graph, then the names of every other method, once each. -/
def keptLines : List Fallback → List String
  | [] => []
  | f :: rest => names f ++ f.dump ++ (newcomers [f.signature.display] rest).flatMap names

def under (fp : String) (history : List Fallback) : List Fallback :=
  history.filter (·.fingerprint = fp)

def written (lines : List String) : String := String.join (lines.map (· ++ "\n"))

theorem newcomers_concat : newcomers seen (l ++ [f]) = newcomers seen l ++
      if f.signature.display ∈ seen ∨ f.signature.display ∈ l.map (·.signature.display) then [] else [f] := by
  induction l generalizing seen with
  | nil =>
    by_cases h : f.signature.display ∈ seen <;> simp [newcomers, h]
  | cons g l ih =>
    rw [cons_append, newcomers, newcomers, map_cons]
    by_cases hg : g.signature.display ∈ seen
    · rw [if_pos hg, if_pos hg, ih]
      refine congrArg (newcomers seen l ++ ·) (if_congr ?_ rfl rfl)
      rw [mem_cons]
      constructor
      · exact Or.imp_right .inr
      · rintro (h | h | h)
        · exact .inl h
        · exact .inl (h ▸ hg)
        · exact .inr h
    · rw [if_neg hg, if_neg hg, ih, cons_append]
      refine congrArg (g :: newcomers _ l ++ ·) (if_congr ?_ rfl rfl)
      rw [mem_cons, mem_cons, or_assoc, or_left_comm]

theorem mem_of_mem_newcomers (h : g ∈ newcomers seen l) : g ∈ l := by
  induction l generalizing seen with
  | nil => exact h
  | cons f l ih =>
    rw [newcomers] at h
    split at h
    · exact .tail _ (ih h)
    · rcases mem_cons.1 h with rfl | h
      · exact .head _
      · exact .tail _ (ih h)

theorem display_mem_newcomers (seen : List String) (h : g ∈ l) :
    g.signature.display ∈ seen ∨ ∃ g' ∈ newcomers seen l, g'.signature.display = g.signature.display := by
  induction l generalizing seen with
  | nil => cases h
  | cons f l ih =>
    rw [newcomers]
    split
    next hf =>
      rcases mem_cons.1 h with rfl | h
      · exact .inl hf
      · exact ih seen h
    next hf =>
      rcases mem_cons.1 h with rfl | h
      · exact .inr ⟨g, .head _, rfl⟩
      · rcases ih (f.signature.display :: seen) h with hseen | ⟨g', hg', heq⟩
        · rcases mem_cons.1 hseen with heq | hseen
          · exact .inr ⟨f, .head _, heq.symm⟩
          · exact .inl hseen
        · exact .inr ⟨g', .tail _ hg', heq⟩

theorem mangled_plain (sig : Signature) {c : Char} (hc : c.isAlphanum = false) (hc' : c ≠ '_') :
    c ∉ sig.mangled.toList := by
  rw [Signature.mangled, toList_map]
  intro hmem
  obtain ⟨d, _, hd⟩ := mem_map.1 hmem
  unfold Signature.mangleChar at hd
  split at hd
  next halnum =>
    subst hd
    rw [hc] at halnum
    cases halnum
  next => exact hc' hd.symm

theorem display_ne_mangled (a b : Signature) : a.display ≠ b.mangled := by
  intro h
  refine mangled_plain b (c := '.') (by decide) (by decide) ?_
  rw [← h]
  simp [Signature.display]

theorem display_mem_keptLines_iff (hdump : ∀ g ∈ l, f.signature.display ∉ g.dump) :
    f.signature.display ∈ keptLines l ↔ f.signature.display ∈ l.map (·.signature.display) := by
  have hnames : ∀ g, f.signature.display ∈ names g → f.signature.display = g.signature.display := by
    intro g hg
    simp only [names, mem_cons, not_mem_nil, or_false] at hg
    exact hg.resolve_right (display_ne_mangled _ _)
  cases l with
  | nil => simp [keptLines]
  | cons g l =>
    simp only [keptLines, mem_append, mem_flatMap]
    constructor
    · rintro ((h | h) | ⟨g', hg', h⟩)
      · exact mem_map.2 ⟨g, .head _, (hnames g h).symm⟩
      · exact absurd h (hdump g (.head _))
      · exact mem_map.2
          ⟨g', .tail _ (mem_of_mem_newcomers hg'), (hnames g' h).symm⟩
    · intro h
      obtain ⟨g', hg', heq⟩ := mem_map.1 h
      rw [← heq]
      rcases mem_cons.1 hg' with rfl | hg'
      · exact .inl (.inl (.head _))
      · rcases display_mem_newcomers [g.signature.display] hg' with hseen | ⟨g'', hg'', heq'⟩
        · rw [mem_singleton.1 hseen]
          exact .inl (.inl (.head _))
        · exact .inr ⟨g'', hg'', heq' ▸ .head _⟩

theorem keptLines_concat (hl : l ≠ []) :
    keptLines (l ++ [f]) =
    if f.signature.display ∈ l.map (·.signature.display) then keptLines l else keptLines l ++ names f := by
  cases l with
  | nil => exact absurd rfl hl
  | cons g l =>
    rw [cons_append, keptLines, keptLines, newcomers_concat, flatMap_append, map_cons]
    simp only [mem_cons, not_mem_nil, or_false]
    split <;> simp

theorem keptLines_ne_nil (hl : l ≠ []) : keptLines l ≠ [] := by
  cases l with
  | nil => exact absurd rfl hl
  | cons g l => simp [keptLines, names]

theorem under_concat (history : List Fallback) :
    under fp (history ++ [f]) = under fp history ++ if f.fingerprint = fp then [f] else [] := by
  rw [under, filter_append]
  by_cases h : f.fingerprint = fp <;> simp [h, under]

theorem mem_of_mem_under {history : List Fallback} (h : f ∈ under fp history) : f ∈ history :=
  (mem_filter.1 h).1

/-! ### Lines and texts -/

/-- A graph whose file is one of the folder, and whose lines are lines of that file. -/
structure Recordable (f : Fallback) : Prop where
  fingerprint : '/' ∉ f.fingerprint.toList
  signature : '\n' ∉ f.signature.display.toList ∧ '\r' ∉ f.signature.display.toList
  dump : ∀ line ∈ f.dump, '\n' ∉ line.toList ∧ '\r' ∉ line.toList

theorem isName_of_plain (h : '/' ∉ fp.toList) : Files.IsName (fp ++ ".txt") := by
  have hlong : ∀ text : String, text.length < 4 → fp ++ ".txt" ≠ text := by
    rintro text hlen rfl
    have hext : ".txt".length = 4 := by decide
    rw [String.length_append] at hlen
    omega
  exact ⟨by simp [h], hlong _ (by decide), hlong _ (by decide), hlong _ (by decide)⟩

theorem Recordable.oneLine_of_mem (hf : Recordable f) (h : line ∈ names f ++ f.dump) :
    Text.OneLine line.toList := by
  simp only [names, cons_append, nil_append, mem_cons] at h
  rcases h with rfl | rfl | h
  · exact .of_not_mem hf.signature.1 hf.signature.2
  · exact .of_not_mem (mangled_plain _ (by decide) (by decide)) (mangled_plain _ (by decide) (by decide))
  · exact .of_not_mem (hf.dump line h).1 (hf.dump line h).2

theorem oneLine_of_mem_keptLines (hl : ∀ g ∈ l, Recordable g) (h : line ∈ keptLines l) :
    Text.OneLine line.toList := by
  cases l with
  | nil => cases h
  | cons g l =>
    rcases mem_append.1 h with h | h
    · exact (hl g (.head _)).oneLine_of_mem h
    · obtain ⟨g', hg', h⟩ := mem_flatMap.1 h
      exact (hl g' (.tail _ (mem_of_mem_newcomers hg'))).oneLine_of_mem
        (mem_append_left _ h)

theorem written_eq : written ls = ofList (Text.unlines (ls.map toList)) := by
  rw [← toList_inj, toList_ofList, written, toList_join, Text.unlines,
    flatMap_map, flatMap_map]
  simp

theorem written_append (ls ls' : List String) : written (ls ++ ls') = written ls ++ written ls' := by
  simp [written_eq]

theorem lines_written (h : ∀ line ∈ ls, Text.OneLine line.toList) :
    (Text.lines (written ls)).map ofList = ls := by
  rw [written_eq, Text.lines_unlines fun l hl => ?_, List.map_map]
  · exact (map_congr_left fun _ _ => ofList_toList).trans (map_id _)
  · obtain ⟨line, hline, rfl⟩ := mem_map.1 hl
    exact h line hline

theorem firstText_eq : firstText f = written (names f ++ f.dump) := rfl

theorem laterText_eq : laterText f = written (names f) := by
  rw [← toList_inj]
  simp [laterText, written, names]

/-! ### One call -/

/-- One file got something at its end, or was made, and no other file changed. -/
def Added (path : String) (fs fs' : Files) : Prop :=
  ∃ place old added, fs'.resolve path = .ok (.text place (old ++ added)) ∧
    (fs.entryAt place = .text place old ∨ old = "" ∧ ∀ text, fs.entryAt place ≠ .text place text) ∧
    ∀ other ≠ place, ∀ text, fs'.entryAt other = .text other text ↔ fs.entryAt other = .text other text

/-- The files of a store hold what was kept, and the store knows no other lines than those in the files.
As long as nothing was kept, the folder need not be there. -/
structure Kept (folder : String) (history : List Fallback) (s : GraphStore) (fs : Files) : Prop where
  folder_eq : s.folder = folder
  recordable : ∀ f ∈ history, Recordable f
  home : history ≠ [] → ∃ p, fs.home folder = some p
  files : ∀ fs₁, fs.make folder = .ok fs₁ → ∀ fp, '/' ∉ fp.toList →
    ∀ text, fs₁.read (join folder (fp ++ ".txt")) = .ok text ↔
      under fp history ≠ [] ∧ text = written (keptLines (under fp history))
  known : ∀ fp lines, s.known.lookup fp = some lines →
    ∀ line, line ∈ lines ↔ line ∈ keptLines (under fp history)

variable {folder : String} {history : List Fallback}

theorem Kept.read_iff (h : Kept folder history s fs) (hfp : '/' ∉ fp.toList) :
    fs.read (join folder (fp ++ ".txt")) = .ok text ↔
      under fp history ≠ [] ∧ text = written (keptLines (under fp history)) := by
  by_cases hhome : ∃ p, fs.home folder = some p
  · obtain ⟨p, hp⟩ := hhome
    exact h.files fs (Files.make_of_home hp) fp hfp text
  · have hnone : history = [] := by
      by_contra hne
      exact hhome (h.home hne)
    constructor
    · intro hread
      obtain ⟨_, p, hp, _⟩ := (Files.read_join_iff (isName_of_plain hfp)).1 hread
      exact absurd ⟨p, hp⟩ hhome
    · rintro ⟨hne, _⟩
      exact absurd (by rw [hnone]; rfl) hne

theorem Kept.mem_linesIn_iff (h : Kept folder history s fs) (hfp : '/' ∉ fp.toList) :
    line ∈ s.linesIn fs fp ↔ line ∈ keptLines (under fp history) := by
  unfold linesIn
  cases hknown : s.known.lookup fp with
  | some lines => exact h.known fp lines hknown line
  | none =>
    rw [Option.getD_none, path, h.folder_eq, fileLines]
    cases hread : fs.read (join folder (fp ++ ".txt")) with
    | ok text =>
      obtain ⟨_, rfl⟩ := (h.read_iff hfp).1 hread
      have hlines := lines_written fun line hline => oneLine_of_mem_keptLines
        (fun g (hg : g ∈ under fp history) => h.recordable g (mem_of_mem_under hg)) hline
      show line ∈ (Text.lines (written (keptLines (under fp history)))).map ofList ↔ _
      rw [hlines]
    | error e =>
      have hnone : under fp history = [] := by
        by_contra hne
        rw [(h.read_iff hfp).2 ⟨hne, rfl⟩] at hread
        cases hread
      rw [hnone]
      rfl

theorem lookup_remember (fp fp' : String) : (s.remember fp lines).known.lookup fp' =
      if fp' = fp then some lines else s.known.lookup fp' := by
  have hrest : (fp' == fp) = false →
      (s.known.filter (·.1 ≠ fp)).lookup fp' = s.known.lookup fp' := by
    intro h
    induction s.known with
    | nil => rfl
    | cons e known ih =>
      rw [filter_cons, List.lookup_cons]
      by_cases he : e.1 = fp
      · rw [if_neg (by simpa using he), ih, he, h]
      · rw [if_pos (by simpa using he), List.lookup_cons, ih]
  rw [remember, List.lookup_cons]
  cases h : fp' == fp with
  | true => simp [eq_of_beq h]
  | false => simpa [ne_of_beq_false h] using hrest h

theorem join_name_inj {fp fp' : String} (h : p ++ [fp ++ ".txt"] = p ++ [fp' ++ ".txt"]) :
    fp = fp' := by
  have hname := append_cancel_left h
  exact (String.append_left_inj _).1 (List.cons.inj hname).1

theorem Kept.written (h : Kept folder history s fs) (hf : Recordable f)
    (hmake : fs.make folder = .ok fs₁) (hp : fs₁.home folder = some p)
    (hfile : fs₁.isFolder (p ++ [f.fingerprint ++ ".txt"]) = false)
    (hshort : (f.fingerprint ++ ".txt").utf8ByteSize ≤ maxNameBytes)
    (hlines : ∀ line, line ∈ lines' ↔ line ∈ keptLines (under f.fingerprint (history ++ [f]))) :
    Kept folder (history ++ [f]) (s.remember f.fingerprint lines')
      (fs₁.setText (p ++ [f.fingerprint ++ ".txt"])
        (GraphStore.written (keptLines (under f.fingerprint (history ++ [f]))))) := by
  have hhome : ∀ content, (fs₁.setText (p ++ [f.fingerprint ++ ".txt"]) content).home folder = some p :=
    fun content => Files.home_setText hp
  have hother : ∀ fp', fp' ≠ f.fingerprint → under fp' (history ++ [f]) = under fp' history := by
    intro fp' hne
    rw [under_concat, if_neg (Ne.symm hne), append_nil]
  refine ⟨h.folder_eq, forall_mem_append.2 ⟨h.recordable, forall_mem_singleton.2 hf⟩,
    fun _ => ⟨p, hhome _⟩, fun fs₂ hfs₂ fp' hfp' text => ?_, fun fp' ls hls line => ?_⟩
  · cases hfs₂.symm.trans (Files.make_of_home (hhome _))
    rw [Files.read_join_iff (isName_of_plain hfp'), hhome]
    simp only [Option.some.injEq, exists_eq_left']
    rw [Files.entryAt_setText hfile]
    by_cases hfp : fp' = f.fingerprint
    · subst hfp
      rw [if_pos rfl, FileEntry.text.injEq]
      have hne : under f.fingerprint (history ++ [f]) ≠ [] := by simp [under_concat]
      exact ⟨fun ⟨_, _, ht⟩ => ⟨hne, ht.symm⟩, fun ⟨_, ht⟩ => ⟨hshort, rfl, ht.symm⟩⟩
    · rw [if_neg fun he => hfp (join_name_inj he), hother fp' hfp, ← h.files fs₁ hmake fp' hfp' text,
        Files.read_join_iff (isName_of_plain hfp'), hp]
      simp
  · rw [lookup_remember] at hls
    by_cases hfp : fp' = f.fingerprint
    · subst hfp
      rw [if_pos rfl] at hls
      cases hls
      exact hlines line
    · rw [if_neg hfp] at hls
      rw [hother fp' hfp]
      exact h.known fp' ls hls line

theorem added_setText (hwide : Files.Widened fs fs₁) (hfp : '/' ∉ fp.toList)
    (hp : fs₁.home folder = some p) (hfile : fs₁.isFolder (p ++ [fp ++ ".txt"]) = false)
    (hshort : (fp ++ ".txt").utf8ByteSize ≤ maxNameBytes) {old added : String}
    (hold : fs.entryAt (p ++ [fp ++ ".txt"]) = .text (p ++ [fp ++ ".txt"]) old ∨
      old = "" ∧ ∀ text, fs.entryAt (p ++ [fp ++ ".txt"]) ≠ .text (p ++ [fp ++ ".txt"]) text) :
    Added (join folder (fp ++ ".txt")) fs (fs₁.setText (p ++ [fp ++ ".txt"]) (old ++ added)) := by
  refine ⟨p ++ [fp ++ ".txt"], old, added, ?_, hold, fun other hne text => ?_⟩
  · rw [Files.resolve_join_iff (isName_of_plain hfp)]
    refine ⟨hshort, p, Files.home_setText hp, ?_⟩
    rw [Files.entryAt_setText hfile, if_pos rfl]
  · rw [Files.entryAt_setText hfile, if_neg hne]
    exact hwide.entryAt_eq_text_iff

/-- **A call keeps the files and the store in step**, and only adds to its own file. -/
theorem Kept.saves (h : Kept folder history s fs) (hf : Recordable f)
    (hdump : ∀ g ∈ history, f.signature.display ∉ g.dump)
    (hsaves : Saves folder (s.linesIn fs f.fingerprint) fs f lines' fs') :
    Kept folder (history ++ [f]) (s.remember f.fingerprint lines') fs' ∧
      Added (join folder (f.fingerprint ++ ".txt")) fs fs' := by
  have hname := isName_of_plain hf.fingerprint
  have hseen : ∀ {line}, line ∈ s.linesIn fs f.fingerprint ↔
      line ∈ keptLines (under f.fingerprint history) := h.mem_linesIn_iff hf.fingerprint
  have hdisplay : f.signature.display ∈ keptLines (under f.fingerprint history) ↔
      f.signature.display ∈ (under f.fingerprint history).map (·.signature.display) :=
    display_mem_keptLines_iff fun g hg => hdump g (mem_of_mem_under hg)
  have hunder : under f.fingerprint (history ++ [f]) = under f.fingerprint history ++ [f] := by
    rw [under_concat, if_pos rfl]
  have hmet : s.linesIn fs f.fingerprint ≠ [] → under f.fingerprint history ≠ [] := by
    intro hne hnone
    obtain ⟨line, hline⟩ := exists_mem_of_ne_nil _ hne
    rw [hseen, hnone] at hline
    cases hline
  cases hsaves with
  | first hlines hmake hwrite =>
    have hnone : under f.fingerprint history = [] := by
      by_contra hne
      obtain ⟨line, hline⟩ := exists_mem_of_ne_nil _ (keptLines_ne_nil hne)
      rw [← hseen, hlines] at hline
      cases hline
    obtain ⟨hshort, p, hp, hfile, rfl⟩ := (Files.write_join hname).1 hwrite
    have hwide := Files.widened_make hmake
    have hkept : keptLines (under f.fingerprint (history ++ [f])) = names f ++ f.dump := by
      rw [hunder, hnone]
      simp [keptLines, newcomers]
    constructor
    · rw [firstText_eq, ← hkept]
      exact h.written hf hmake hp hfile hshort fun line => Iff.rfl
    · rw [← empty_append (s := firstText f)]
      refine added_setText hwide hf.fingerprint hp hfile hshort (.inr ⟨rfl, fun text ht => ?_⟩)
      have hread := (Files.read_join_iff hname).2 ⟨hshort, p, hp, hwide.entryAt_eq_text_iff.2 ht⟩
      exact ((h.files _ hmake _ hf.fingerprint text).1 hread).1 hnone
  | again hlines hagain =>
    have hkept : keptLines (under f.fingerprint (history ++ [f])) =
        keptLines (under f.fingerprint history) := by
      rw [hunder, keptLines_concat (hmet hlines), if_pos (hdisplay.1 (hseen.1 hagain))]
    have hsame : ∀ fp', keptLines (under fp' (history ++ [f])) = keptLines (under fp' history) ∧
        (under fp' (history ++ [f]) ≠ [] ↔ under fp' history ≠ []) := by
      intro fp'
      by_cases hfp : fp' = f.fingerprint
      · subst hfp
        exact ⟨hkept, fun _ => hmet hlines, fun _ => by simp [hunder]⟩
      · rw [under_concat, if_neg (Ne.symm hfp), append_nil]
        exact ⟨rfl, Iff.rfl⟩
    have hread := (h.read_iff hf.fingerprint).2 ⟨hmet hlines, rfl⟩
    obtain ⟨hshort, p, hp, hentry⟩ := (Files.read_join_iff hname).1 hread
    refine ⟨⟨h.folder_eq, forall_mem_append.2 ⟨h.recordable, forall_mem_singleton.2 hf⟩,
      fun _ => ⟨p, hp⟩, fun fs₁ hmake fp' hfp' text => ?_, fun fp' ls hls line => ?_⟩, _, _, "", ?_,
      .inl hentry, fun _ _ _ => Iff.rfl⟩
    · rw [h.files fs₁ hmake fp' hfp' text, (hsame fp').1, (hsame fp').2]
    · rw [(hsame fp').1]
      rw [lookup_remember] at hls
      split at hls
      next hfp =>
        cases hls
        rw [hfp]
        exact hseen
      next => exact h.known fp' ls hls line
    · rw [append_empty, Files.resolve_join_iff hname]
      exact ⟨hshort, p, hp, hentry.symm⟩
  | later hlines hnew hwrite =>
    have hkept : keptLines (under f.fingerprint (history ++ [f])) =
        keptLines (under f.fingerprint history) ++ names f := by
      rw [hunder, keptLines_concat (hmet hlines), if_neg fun hd => hnew (hseen.2 (hdisplay.2 hd))]
    obtain ⟨hshort, p, old, hp, hentry, rfl⟩ := (Files.append_join hname).1 hwrite
    have hfile := (Files.entryAt_eq_text_iff.1 hentry).2.1
    have hread := (Files.read_join_iff hname).2 ⟨hshort, p, hp, hentry⟩
    obtain ⟨_, rfl⟩ := (h.read_iff hf.fingerprint).1 hread
    refine ⟨?_, added_setText (.refl fs) hf.fingerprint hp hfile hshort (.inl hentry)⟩
    rw [laterText_eq, ← written_append, ← hkept]
    refine h.written hf (Files.make_of_home hp) hp hfile hshort fun line => ?_
    rw [hkept, mem_append, mem_append, hseen, or_comm]

end Structurer.GraphStore
