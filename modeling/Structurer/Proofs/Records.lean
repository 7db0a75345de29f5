/-
**What the store keeps.**

A folder of graphs that was empty at first holds, for every fingerprint, the names of the first method and
the dump of its graph, and after that the names of every other method of this fingerprint, each of them
once.  It makes no difference when the store is closed and opened again.
-/

import Structurer.Proofs.Keeping

namespace Structurer.GraphStore

open List

variable {s s' : GraphStore} {fs fs' : Files} {f : Fallback} {lines lines' : List String}
  {folder : String} {history : List Fallback}

/-! ### Histories -/

/-- What happens to a folder of graphs: a graph is kept, or the store is opened anew. -/
inductive Incident where
  | record (f : Fallback)
  | reopen
  deriving DecidableEq, Repr

def calls : List Incident → List Fallback
  | [] => []
  | .record f :: rest => f :: calls rest
  | .reopen :: rest => calls rest

def replay (s : GraphStore) (fs : Files) : List Incident → Option (GraphStore × Files)
  | [] => some (s, fs)
  | .record f :: rest =>
    match (s.save f : StateM Files _).run fs with
    | ((.ok (), s), fs) => s.replay fs rest
    | ((.error _, _), _) => none
  | .reopen :: rest => (new s.folder).replay fs rest

/-- There are no files in a folder, which may have to be made. -/
def Vacant (fs : Files) (folder : String) : Prop :=
  ∀ fs₁, fs.make folder = .ok fs₁ → ∀ name, Files.IsName name → ∀ text,
    fs₁.read (join folder name) ≠ .ok text

theorem replay_record_eq_some_iff {rest : List Incident} {r : GraphStore × Files} :
    s.replay fs (.record f :: rest) = some r ↔
      ∃ s₁ fs₁, (s.save f : StateM Files _).run fs = ((.ok (), s₁), fs₁) ∧ s₁.replay fs₁ rest = some r := by
  rw [replay]
  cases (s.save f : StateM Files _).run fs with
  | mk a fs₁ =>
    obtain ⟨answer, s₁⟩ := a
    cases answer with
    | ok u => exact ⟨fun h => ⟨s₁, fs₁, rfl, h⟩, fun ⟨_, _, h, hrest⟩ => by cases h; exact hrest⟩
    | error e => exact ⟨(fun h => by cases h), fun ⟨_, _, h, _⟩ => by cases h⟩

theorem replay_append {before after : List Incident} {r : GraphStore × Files}
    (h : s.replay fs (before ++ after) = some r) :
    ∃ s₁ fs₁, s.replay fs before = some (s₁, fs₁) ∧ s₁.replay fs₁ after = some r := by
  induction before generalizing s fs with
  | nil => exact ⟨s, fs, rfl, h⟩
  | cons i before ih =>
    cases i with
    | record f =>
      obtain ⟨s₁, fs₁, hsave, h⟩ := replay_record_eq_some_iff.1 h
      obtain ⟨s₂, fs₂, hbefore, hafter⟩ := ih h
      exact ⟨s₂, fs₂, replay_record_eq_some_iff.2 ⟨s₁, fs₁, hsave, hbefore⟩, hafter⟩
    | reopen => exact ih h

theorem calls_append (before after : List Incident) :
    calls (before ++ after) = calls before ++ calls after := by
  induction before with
  | nil => rfl
  | cons i before ih =>
    cases i with
    | record f => exact congrArg (f :: ·) ih
    | reopen => exact ih

theorem kept_new (h : Vacant fs folder) : Kept folder [] (new folder) fs where
  folder_eq := rfl
  recordable := by simp
  home h := absurd rfl h
  files fs₁ hmake fp hfp text :=
    ⟨fun hread => absurd hread (h fs₁ hmake _ (isName_of_plain hfp) text), fun h => absurd rfl h.1⟩
  known := by simp [new]

theorem Kept.reopen (h : Kept folder history s fs) : Kept folder history (new s.folder) fs :=
  ⟨h.folder_eq, h.recordable, h.home, h.files, by simp [new]⟩

/-- Graphs that a store can keep: no line of a dump is the name of a method. -/
structure Apart (history : List Fallback) : Prop where
  recordable : ∀ f ∈ history, Recordable f
  dump : ∀ f ∈ history, ∀ g ∈ history, f.signature.display ∉ g.dump

theorem Kept.save {rest : List Fallback} (h : Kept folder history s fs)
    (ha : Apart (history ++ f :: rest))
    (hsave : (s.save f : StateM Files _).run fs = ((.ok (), s'), fs')) :
    Kept folder (history ++ [f]) s' fs' ∧ Added (join folder (f.fingerprint ++ ".txt")) fs fs' := by
  have hf : f ∈ history ++ f :: rest := by simp
  obtain ⟨lines', hsaves, rfl⟩ := save_eq_ok_iff.1 hsave
  rw [h.folder_eq] at hsaves
  exact h.saves (ha.recordable f hf) (fun g hg => ha.dump f hf g (mem_append_left _ hg)) hsaves

/-- **Along a history the files hold what was kept.** -/
theorem Kept.replay {incidents : List Incident} (h : Kept folder history s fs)
    (ha : Apart (history ++ calls incidents)) (hr : s.replay fs incidents = some (s', fs')) :
    Kept folder (history ++ calls incidents) s' fs' := by
  induction incidents generalizing history s fs with
  | nil =>
    cases hr
    rwa [calls, append_nil]
  | cons i incidents ih =>
    cases i with
    | record f =>
      obtain ⟨s₁, fs₁, hsave, hr⟩ := replay_record_eq_some_iff.1 hr
      rw [calls, append_cons] at ha ⊢
      exact ih (h.save (by rwa [append_assoc] at ha) hsave).1 ha hr
    | reopen => exact ih h.reopen ha hr

/-! ### Reopening -/

theorem Saves.congr {lines₂ : List String} (hlines : ∀ line, line ∈ lines ↔ line ∈ lines₂)
    (h : Saves folder lines fs f lines' fs') : ∃ lines₂', Saves folder lines₂ fs f lines₂' fs' := by
  have hnil : lines = [] ↔ lines₂ = [] := by
    simp only [eq_nil_iff_forall_not_mem, hlines]
  cases h with
  | first hl hmake hwrite => exact ⟨_, .first (hnil.1 hl) hmake hwrite⟩
  | again hl hname => exact ⟨_, .again (fun h => hl (hnil.2 h)) ((hlines _).1 hname)⟩
  | later hl hname hwrite =>
    exact ⟨_, .later (fun h => hl (hnil.2 h)) (fun h => hname ((hlines _).2 h)) hwrite⟩

theorem Kept.save_congr {s₂ : GraphStore} (h : Kept folder history s fs) (h₂ : Kept folder history s₂ fs)
    (hf : Recordable f) (hsave : (s.save f : StateM Files _).run fs = ((.ok (), s'), fs')) :
    ∃ s₂', (s₂.save f : StateM Files _).run fs = ((.ok (), s₂'), fs') := by
  obtain ⟨lines', hsaves, rfl⟩ := save_eq_ok_iff.1 hsave
  have hlines : ∀ line, line ∈ s.linesIn fs f.fingerprint ↔ line ∈ s₂.linesIn fs f.fingerprint :=
    fun line => (h.mem_linesIn_iff hf.fingerprint).trans (h₂.mem_linesIn_iff hf.fingerprint).symm
  rw [h.folder_eq] at hsaves
  obtain ⟨lines₂', hsaves₂⟩ := hsaves.congr hlines
  exact ⟨_, save_eq_ok_iff.2 ⟨lines₂', h₂.folder_eq ▸ hsaves₂, rfl⟩⟩

theorem replay_eq_of_calls_nil {incidents : List Incident} (hcalls : calls incidents = [])
    (hr : s.replay fs incidents = some (s', fs')) : fs' = fs := by
  induction incidents generalizing s with
  | nil =>
    cases hr
    rfl
  | cons i incidents ih =>
    cases i with
    | record f => cases hcalls
    | reopen => exact ih hcalls hr

theorem Kept.first_call {incidents : List Incident} {rest : List Fallback} {r : GraphStore × Files}
    (h : Kept folder history s fs) (hcalls : calls incidents = f :: rest)
    (hr : s.replay fs incidents = some r) :
    ∃ s₀ s₁ fs₁ incidents₁, Kept folder history s₀ fs ∧
      (s₀.save f : StateM Files _).run fs = ((.ok (), s₁), fs₁) ∧ calls incidents₁ = rest ∧
      s₁.replay fs₁ incidents₁ = some r := by
  induction incidents generalizing s with
  | nil => cases hcalls
  | cons i incidents ih =>
    cases i with
    | record g =>
      cases hcalls
      obtain ⟨s₁, fs₁, hsave, hr⟩ := replay_record_eq_some_iff.1 hr
      exact ⟨s, s₁, fs₁, incidents, h, hsave, rfl, hr⟩
    | reopen => exact ih h.reopen hcalls hr

/-- **Opening a store anew makes no difference to the files.** -/
theorem Kept.replay_congr {incidents incidents₂ : List Incident} {s₂ : GraphStore}
    (h : Kept folder history s fs) (h₂ : Kept folder history s₂ fs)
    (ha : Apart (history ++ calls incidents)) (hcalls : calls incidents₂ = calls incidents)
    (hr : s.replay fs incidents = some (s', fs')) :
    ∃ s₂', s₂.replay fs incidents₂ = some (s₂', fs') := by
  induction incidents₂ generalizing history s s₂ fs incidents with
  | nil =>
    cases replay_eq_of_calls_nil hcalls.symm hr
    exact ⟨s₂, rfl⟩
  | cons i incidents₂ ih =>
    cases i with
    | record f =>
      rw [calls] at hcalls
      obtain ⟨s₀, s₁, fs₁, incidents₁, h₀, hsave, hrest, hr⟩ := h.first_call hcalls.symm hr
      rw [← hcalls] at ha
      obtain ⟨s₃, hsave₂⟩ := h₀.save_congr h₂ (ha.recordable f (by simp)) hsave
      have hnext := (h₀.save ha hsave).1
      have hnext₂ := (h₂.save ha hsave₂).1
      rw [append_cons, ← hrest] at ha
      obtain ⟨s₂', hr₂⟩ := ih hnext hnext₂ ha hrest.symm hr
      exact ⟨s₂', replay_record_eq_some_iff.2 ⟨s₃, fs₁, hsave₂, hr₂⟩⟩
    | reopen => exact ih h h₂.reopen ha hcalls hr

/-- **A folder of graphs is append-only, holds no method twice, and does not care about reopening.**  The
folder is empty at first, and nothing goes wrong.  Then the file of every fingerprint holds the names and
the dump of the first method kept under it, and after that the names of every other method, once each, in
the order in which they first came.  Every call only adds to its own file.  And the files would be the same
if the store had been opened anew at other times. -/
theorem replay_exact {incidents : List Incident} (vacant : Vacant fs folder)
    (apart : Apart (calls incidents)) (runs : (new folder).replay fs incidents = some (s', fs')) :
    (∀ f ∈ calls incidents, fs'.read (join folder (f.fingerprint ++ ".txt")) =
      .ok (written (keptLines (under f.fingerprint (calls incidents))))) ∧
    (∀ before f after, incidents = before ++ .record f :: after → ∃ s₁ fs₁ s₂ fs₂,
      (new folder).replay fs before = some (s₁, fs₁) ∧
      (s₁.save f : StateM Files _).run fs₁ = ((.ok (), s₂), fs₂) ∧
      s₂.replay fs₂ after = some (s', fs') ∧ Added (join folder (f.fingerprint ++ ".txt")) fs₁ fs₂) ∧
    ∀ incidents₂, calls incidents₂ = calls incidents →
      ∃ s₂, (new folder).replay fs incidents₂ = some (s₂, fs') := by
  have hkept := kept_new vacant
  refine ⟨fun f hf => ?_, fun before f after hsplit => ?_, fun incidents₂ hcalls => ?_⟩
  · have hend := hkept.replay apart runs
    refine (hend.read_iff (apart.recordable f hf).fingerprint).2 ⟨?_, rfl⟩
    exact List.ne_nil_of_mem (List.mem_filter.2 ⟨hf, by simp⟩)
  · subst hsplit
    rw [calls_append] at apart
    obtain ⟨s₁, fs₁, hbefore, hr⟩ := replay_append runs
    obtain ⟨s₂, fs₂, hsave, hafter⟩ := replay_record_eq_some_iff.1 hr
    have hbefore' := hkept.replay ⟨fun g hg => apart.recordable g (List.mem_append_left _ hg),
      fun g hg g' hg' => apart.dump g (List.mem_append_left _ hg) g' (List.mem_append_left _ hg')⟩ hbefore
    exact ⟨s₁, fs₁, s₂, fs₂, hbefore, hsave, hafter, (hbefore'.save apart hsave).2⟩
  · exact hkept.replay_congr hkept apart hcalls runs

def sharedShape : List Incident :=
  let method (name : String) : Signature := ⟨"pkg/Klass", name, "()V", []⟩
  [.record ⟨"B1-2N3N3R", method "first", ["line one", "line two"]⟩,
    .record ⟨"B1-2N3N3R", method "second", ["line one", "line two"]⟩, .reopen,
    .record ⟨"B1-2N3N3R", method "first", ["line three"]⟩, .record ⟨"N0", method "first", []⟩]

theorem replay_exact_sharedShape : ∃ s' fs',
    (new "/tmp/graphs").replay .empty sharedShape = some (s', fs') ∧
    fs'.read "/tmp/graphs/B1-2N3N3R.txt" = .ok ("pkg/Klass.first()V\npkg_Klass_first___V\nline one\n" ++
      "line two\npkg/Klass.second()V\npkg_Klass_second___V\n") ∧
    fs'.read "/tmp/graphs/N0.txt" = .ok "pkg/Klass.first()V\npkg_Klass_first___V\n" ∧
    ∃ s₂, (new "/tmp/graphs").replay .empty (.reopen :: (calls sharedShape).map .record) = some (s₂, fs') := by
  have hruns : ((new "/tmp/graphs").replay .empty sharedShape).isSome = true := by decide +kernel
  obtain ⟨⟨s', fs'⟩, hruns⟩ := Option.isSome_iff_exists.1 hruns
  have hvacant : Vacant .empty "/tmp/graphs" := by
    intro fs₁ hmake name hname text hread
    obtain ⟨_, p, _, hentry⟩ := (Files.read_join_iff hname).1 hread
    have htext := (Files.entryAt_eq_text_iff.1 ((Files.widened_make hmake).entryAt_eq_text_iff.1 hentry)).2.2
    cases htext
  have hplain : ∀ f ∈ calls sharedShape, '/' ∉ f.fingerprint.toList ∧
      ('\n' ∉ f.signature.display.toList ∧ '\r' ∉ f.signature.display.toList) ∧
      ∀ line ∈ f.dump, '\n' ∉ line.toList ∧ '\r' ∉ line.toList := by decide +kernel
  have hapart : Apart (calls sharedShape) :=
    ⟨fun f hf => ⟨(hplain f hf).1, (hplain f hf).2.1, (hplain f hf).2.2⟩, by decide +kernel⟩
  obtain ⟨hfiles, _, hreopen⟩ := replay_exact hvacant hapart hruns
  refine ⟨s', fs', hruns, ?_, ?_, hreopen _ (by decide +kernel)⟩
  · have hread := hfiles ⟨"B1-2N3N3R", ⟨"pkg/Klass", "second", "()V", []⟩, ["line one", "line two"]⟩
      (by decide +kernel)
    rw [show join "/tmp/graphs" ("B1-2N3N3R" ++ ".txt") = "/tmp/graphs/B1-2N3N3R.txt" by decide +kernel] at hread
    rw [hread]
    exact congrArg Except.ok (by decide +kernel)
  · have hread := hfiles ⟨"N0", ⟨"pkg/Klass", "first", "()V", []⟩, []⟩ (by decide +kernel)
    rw [show join "/tmp/graphs" ("N0" ++ ".txt") = "/tmp/graphs/N0.txt" by decide +kernel] at hread
    rw [hread]
    exact congrArg Except.ok (by decide +kernel)

end Structurer.GraphStore
