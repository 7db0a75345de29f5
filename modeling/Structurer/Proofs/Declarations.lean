/-
**Declarations.**

The lines of a source that are not indented, described by their words with any blanks between them,
and what reading each of them does to a draft.
-/

import Structurer.Proofs.FlatCode
import Structurer.Proofs.Upkeep
import Structurer.Source.Method

namespace Structurer.Source

open Text List

variable {line rest cs : List Char} {d : Draft}

/-! ### The lines -/

def IsRemark (line : List Char) : Prop := Blank line ∨ [';', ';'] <+: line

/-- The line of the method's signature. -/
inductive IsHeading (s : Signature) : List Char → Prop
  | mk {b₁ b₂ b₃ b₄ results : List Char} (h₁ : Gap b₁) (h₂ : Gap b₂) (h₃ : Gap b₃) (h₄ : Gap b₄)
      (hclass : IsWord s.className.toList) (hname : IsWord s.name.toList)
      (hdescriptor : IsWord s.descriptor.toList)
      (hresults : words results = s.results.map fun t => t.name.toList) :
      IsHeading s ("method".toList ++ (b₁ ++ (s.className.toList ++ (b₂ ++ (s.name.toList ++
        (b₃ ++ (s.descriptor.toList ++ (b₄ ++ (['-', '>'] ++ results)))))))))

/-- The line of a variable. -/
inductive IsVariable (v : LocalVariable) : List Char → Prop
  | mk {b₁ b₂ b₃ : List Char} (h₁ : Gap b₁) (h₂ : Gap b₂) (h₃ : Blank b₃) :
      IsVariable v ("local".toList ++ (b₁ ++ (v.name.toList ++ (b₂ ++
        (v.valueType.name.toList ++ b₃)))))

def NamedExit.targets : NamedExit → List String
  | .seq next => [next]
  | .branch ifTrue ifFalse => [ifTrue, ifFalse]
  | .ret => []

def NamedExit.words : NamedExit → List String
  | .seq next => ["seq", next]
  | .branch ifTrue ifFalse => ["branch", ifTrue, ifFalse]
  | .ret => ["return"]

/-- What the line of a node says. -/
structure NodeHead where
  name : String
  inputs : StackType
  outputs : StackType
  exit : NamedExit

/-- The line of a node. -/
inductive IsNodeLine (n : NodeHead) : List Char → Prop
  | mk {b₁ b₂ b₃ b₄ inputs outputs exit : List Char} (h₁ : Gap b₁) (h₂ : Gap b₂) (h₃ : Blank b₃)
      (h₄ : Blank b₄) (hname : IsWord n.name.toList)
      (hinputs : Text.words inputs = n.inputs.map fun t => t.name.toList)
      (houtputs : Text.words outputs = n.outputs.map fun t => t.name.toList)
      (hexit : Text.words exit = n.exit.words.map String.toList) :
      IsNodeLine n ("node".toList ++ (b₁ ++ (n.name.toList ++ (b₂ ++ inParens inputs (b₃ ++
        (['-', '>'] ++ (b₄ ++ inParens outputs exit)))))))

/-! ### Remarks -/

theorem readLine_remark (h : IsRemark line) (d : Draft) (k : Nat) : readLine d k line = .ok d := by
  rcases h with hblank | ⟨rest, rfl⟩
  · have htrim : trim (line ++ []) = trim [] := trim_blank hblank
    rw [append_nil] at htrim
    simp only [readLine, htrim]
    rfl
  · have hmark : IsWord [';', ';'] := by decide
    simp only [readLine, trim_word hmark, stripHead?_append]
    rfl

/-! ### Keywords -/

theorem readLine_keyword {keyword : String}
    (hkeyword : IsWord keyword.toList ∧ keyword.toList.head? ≠ some ';') (d : Draft) (k : Nat) :
    readLine d k (keyword.toList ++ rest) = readDeclaration d k (keyword.toList ++ trimEnd rest) := by
  have hhead : stripHead? [';', ';'] (keyword.toList ++ trimEnd rest) = none := by
    refine stripHead?_mark ?_
    rw [head?_append_of_ne_nil _ hkeyword.1.nonempty]
    exact hkeyword.2
  have hindented : isIndented (keyword.toList ++ rest) = false := by
    cases hk : keyword.toList with
    | nil => exact absurd hk hkeyword.1.nonempty
    | cons c cs => exact hkeyword.1.noBlank c (by simp [hk])
  have hempty : (keyword.toList ++ trimEnd rest).isEmpty = false := by
    simp [hkeyword.1.nonempty]
  simp only [readLine, trim_word hkeyword.1, hempty, hindented, hhead]
  rfl

/-! ### Stacks and exits -/

theorem trimEnd_parens (b cs rest : List Char) :
    trimEnd (b ++ inParens cs rest) = b ++ inParens cs (trimEnd rest) := by
  have hopen : IsWord ['('] := by decide
  have hclose : IsWord [')'] := by decide
  rw [inParens, trimEnd_gap hopen, trimEnd_gap hclose, inParens]

theorem readStack_eq_ok_iff {ts : StackType} :
    readStack cs = .ok (ts, rest) ↔
    ∃ b types, Blank b ∧ words types = (ts.map fun t => t.name.toList) ∧
      cs = b ++ inParens types rest := by
  constructor
  · intro h
    unfold readStack at h
    split at h
    next => cases h
    next inner hinner =>
      split at h
      next => cases h
      next types rest hcut =>
        obtain ⟨ts, hts, ⟨⟩⟩ := Fallible.bind_eq_ok_iff.1 h
        obtain ⟨b, hb, hcs⟩ := parens_of_cut hinner hcut
        exact ⟨b, types, hb, readTypes_eq_ok_iff.1 hts, hcs⟩
  · rintro ⟨b, types, hb, htypes, rfl⟩
    obtain ⟨inner, hinner, hcut⟩ := cut_parens rest hb (close_not_mem [] htypes (by simp))
    simp only [readStack, hinner, hcut, readTypes_eq_ok_iff.2 htypes]
    rfl

theorem readExit_eq_ok_iff {e : NamedExit} :
    readExit cs = .ok e ↔ Text.words cs = e.words.map String.toList := by
  constructor
  · intro h
    have hwords : (Text.words cs).map String.ofList = e.words := by
      unfold readExit at h
      split at h
      · next heq => cases h; exact heq
      · next heq => cases h; exact heq
      · next heq => cases h; exact heq
      · cases h
    rw [← hwords, List.map_map, map_id'' (f := String.toList ∘ String.ofList)]
    exact fun w => String.toList_ofList
  · intro h
    cases e <;> simp [readExit, h, NamedExit.words]

theorem lookup_isSome_eq_false_iff {names : List (String × NodeId)} {name : String} :
    (names.lookup name).isSome = false ↔ name ∉ names.map (·.1) := by
  rw [← Bool.not_eq_true, lookup_isSome_iff, mem_map]
  simp only [beq_iff_eq, eq_comm (a := name)]

/-! ### The declarations -/

theorem readLine_heading {s : Signature} (h : IsHeading s line) (hfirst : d.signature = none)
    (k : Nat) : readLine d k line = .ok { d with signature := some s } := by
  obtain ⟨h₁, h₂, h₃, h₄, hclass, hname, hdescriptor, hresults⟩ := h
  rename_i b₁ b₂ b₃ b₄ results
  have harrow : IsWord ['-', '>'] := by decide
  have hsome : s.descriptor.toList.isEmpty = false := by simpa using hdescriptor.nonempty
  have htypes : readTypes (trimEnd results) = .ok s.results :=
    readTypes_eq_ok_iff.2 (by rw [words_trimEnd, hresults])
  rw [readLine_keyword (by decide), trimEnd_gap hclass, trimEnd_gap hname, trimEnd_gap hdescriptor,
    trimEnd_gap harrow]
  simp only [readDeclaration, splitWord_gap (by decide : IsWord "method".toList) h₁ hclass,
    String.ofList_toList, readMethodLine, hfirst, readSignature, splitWord_gap hclass h₂ hname,
    splitWord_gap hname h₃ hdescriptor, splitWord_gap hdescriptor h₄ harrow, hsome,
    stripHead?_append, htypes]
  rfl

theorem readLine_variable {v : LocalVariable} (h : IsVariable v line) (hname : IsWord v.name.toList)
    (hnew : v.name ∉ d.locals.names) (k : Nat) :
    readLine d k line =
      .ok { d with locals := { d.locals with entries := d.locals.entries.push v } } := by
  obtain ⟨h₁, h₂, h₃⟩ := h
  have htype := v.valueType.isWord_name
  have hread : readType (v.valueType.name.toList ++ []) = .ok v.valueType := by
    simp [readType, String.ofList_toList]
  have hlookup : (d.locals.lookup v.name).isSome = false := by
    rw [Locals.lookup_eq_none_iff.2 hnew]
    rfl
  rw [readLine_keyword (by decide), trimEnd_gap hname, trimEnd_gap htype, trimEnd_eq_nil_iff.2 h₃]
  simp only [readDeclaration, splitWord_gap (by decide : IsWord "local".toList) h₁ hname,
    String.ofList_toList, readLocalLine, splitWord_gap hname h₂ htype, hread, Locals.add,
    Locals.freeName_eq_self hnew, hlookup]
  rfl

def Draft.addNode (d : Draft) (line : Nat) (head : NodeHead) : Draft :=
  { d with
    graph := (d.graph.addNode (.new [] head.inputs head.outputs)).2
    names := d.names ++ [(head.name, ⟨d.graph.nextSerial⟩)]
    pending := d.pending ++ [⟨line, ⟨d.graph.nextSerial⟩, head.exit⟩]
    current := some ⟨d.graph.nextSerial⟩ }

theorem readLine_node {n : NodeHead} (h : IsNodeLine n line) (hnew : n.name ∉ d.names.map (·.1))
    (k : Nat) : readLine d k line = .ok (d.addNode k n) := by
  obtain ⟨h₁, h₂, h₃, h₄, hname, hinputs, houtputs, hexit⟩ := h
  rename_i b₁ b₂ b₃ b₄ inputs outputs exit
  have harrow : IsWord ['-', '>'] := by decide
  have hcut : ∀ cs rest, splitWord (n.name.toList ++ (b₂ ++ inParens cs rest)) =
      (n.name.toList, inParens cs rest) := fun cs rest => splitWord_gap hname h₂ (by decide)
  have hin : ∀ rest, readStack (inParens inputs rest) = .ok (n.inputs, rest) := fun rest =>
    readStack_eq_ok_iff.2 ⟨[], inputs, by decide, hinputs, rfl⟩
  have hout : ∀ rest, readStack (b₄ ++ inParens outputs rest) = .ok (n.outputs, rest) := fun rest =>
    readStack_eq_ok_iff.2 ⟨b₄, outputs, h₄, houtputs, rfl⟩
  have hread : readExit (trimEnd exit) = .ok n.exit :=
    readExit_eq_ok_iff.2 (by rw [words_trimEnd, hexit])
  rw [readLine_keyword (by decide), trimEnd_gap hname, trimEnd_parens, trimEnd_gap harrow,
    trimEnd_parens]
  simp only [readDeclaration, splitWord_gap (by decide : IsWord "node".toList) h₁ hname,
    String.ofList_toList, readNodeLine, hcut, lookup_isSome_eq_false_iff.2 hnew, hin, Fallible.ok_bind,
    trimStart_gap h₃ harrow, stripHead?_append, hout, hread]
  rfl

end Structurer.Source
