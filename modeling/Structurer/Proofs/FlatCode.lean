/-
**Reading flat instructions back.**

An instruction without nested bodies and jumps is rendered as one line, and the line reads back as
the instruction.
-/

import Mathlib.Data.List.Basic
import Structurer.Code.Render
import Structurer.Proofs.Lines
import Structurer.Proofs.Numerals
import Structurer.Proofs.Spelling

namespace Structurer

open Text Number List

variable {word : String}

/-! ### Spaces as the only blanks -/

namespace Text

variable {cs rest : List Char}

def Spaced (cs : List Char) : Prop := ∀ c ∈ cs, c = ' ' ∨ isBlank c = false

instance (cs : List Char) : Decidable (Spaced cs) :=
  decidable_of_iff (cs.all (fun c => c == ' ' || !isBlank c) = true) (by simp [Spaced])

theorem IsWord.spaced (h : IsWord cs) : Spaced cs := fun c hc => .inr (h.noBlank c hc)

theorem IsWord.cons {c : Char} (hc : isBlank c = false) (h : ∀ d ∈ cs, isBlank d = false) :
    IsWord (c :: cs) :=
  ⟨cons_ne_nil _ _, forall_mem_cons.2 ⟨hc, h⟩⟩

theorem Spaced.append (h : Spaced cs) (h' : Spaced rest) : Spaced (cs ++ rest) := by
  intro c hc
  rcases mem_append.1 hc with hc | hc
  · exact h c hc
  · exact h' c hc

theorem Spaced.oneLine (h : Spaced cs) : OneLine cs := by
  refine .of_not_mem (fun hc => ?_) (fun hc => ?_)
  · rcases h _ hc with h | h <;> exact absurd h (by decide)
  · rcases h _ hc with h | h <;> exact absurd h (by decide)

end Text

theorem isWord_toString_int (z : Int) : IsWord (toString z).toList := by
  refine ⟨fun hnil => ?_, solid_integer? (integer?_toString z)⟩
  have h := integer?_toString z
  rw [hnil] at h
  cases h

/-! ### Types -/

namespace Source

variable {name : List Char}

def typeList (ts : StackType) : List Char := ts.flatMap fun t => ' ' :: t.name.toList

theorem apart_typeList (ts : StackType) : Apart (typeList ts) := by
  cases ts with
  | nil => rfl
  | cons t ts => rfl

theorem words_typeList (ts : StackType) : words (typeList ts) = ts.map fun t => t.name.toList := by
  induction ts with
  | nil => rfl
  | cons t ts ih =>
    have hsplit : typeList (t :: ts) = [' '] ++ (t.name.toList ++ typeList ts) := rfl
    rw [hsplit, words_blank (by decide), words_word t.isWord_name (apart_typeList ts), ih,
      map_cons]

theorem spaced_typeList (ts : StackType) : Spaced (typeList ts) := by
  intro c hc
  obtain ⟨t, -, hc⟩ := mem_flatMap.1 hc
  rcases mem_cons.1 hc with rfl | hc
  · exact .inl rfl
  · exact t.isWord_name.spaced c hc

/-! ### The types of calls -/

theorem toList_typeGroup {keyword : String} {ts : StackType} (h : ts ≠ []) :
    (typeGroup keyword ts).toList = ' ' :: '(' :: (keyword.toList ++ typeList ts) ++ [')'] := by
  have hjoin : (String.join (ts.map fun t => " " ++ t.name)).toList = typeList ts := by
    rw [String.toList_join, flatMap_map, typeList]
    congr 1
    funext t
    simp
  rw [typeGroup, if_neg (by simpa using h)]
  simp [hjoin]

theorem typeGroup_nil (keyword : String) : typeGroup keyword [] = "" := rfl

theorem callType_blockType (inputs outputs : StackType) :
    CallType inputs outputs (blockType inputs outputs).toList := by
  have hgroup : ∀ {keyword : String} {ts : StackType} (rest : List Char), ts ≠ [] →
      (typeGroup keyword ts).toList ++ rest = [' '] ++ inParens (keyword.toList ++ typeList ts) rest :=
    fun rest h => by simp [toList_typeGroup h, inParens]
  have hwords : ∀ {keyword : String} (ts : StackType), IsWord keyword.toList →
      words (keyword.toList ++ typeList ts) = [keyword.toList] ++ ts.map fun t => t.name.toList := by
    intro keyword ts hkeyword
    rw [words_word hkeyword (apart_typeList ts), words_typeList]
    rfl
  have hblank : Blank [' '] := by decide
  have hresult : CallType [] outputs (typeGroup "result" outputs).toList := by
    by_cases houtputs : outputs = []
    · subst houtputs
      exact .nil (by decide)
    · have hread : CallType [] (outputs ++ []) _ :=
        .result hblank (hwords outputs (by decide)) (.nil (b := []) (by decide))
      rwa [← hgroup [] houtputs, append_nil, append_nil] at hread
  rw [blockType, String.toList_append]
  by_cases hinputs : inputs = []
  · subst hinputs
    exact hresult
  · have hread : CallType (inputs ++ []) outputs _ :=
      .param hblank (hwords inputs (by decide)) hresult
    rwa [← hgroup _ hinputs, append_nil] at hread

theorem blockType_shape (inputs outputs : StackType) :
    (inputs = [] ∧ outputs = [] ∧ (blockType inputs outputs).toList = []) ∨
      ∃ middle, middle ≠ [] ∧ (blockType inputs outputs).toList = ' ' :: '(' :: middle ++ [')'] := by
  by_cases hinputs : inputs = []
  · by_cases houtputs : outputs = []
    · subst hinputs houtputs
      exact .inl ⟨rfl, rfl, rfl⟩
    · refine .inr ⟨"result".toList ++ typeList outputs, by simp, ?_⟩
      rw [blockType, String.toList_append, hinputs, typeGroup_nil, toList_typeGroup houtputs]
      rfl
  · by_cases houtputs : outputs = []
    · refine .inr ⟨"param".toList ++ typeList inputs, by simp, ?_⟩
      rw [blockType, String.toList_append, houtputs, typeGroup_nil, toList_typeGroup hinputs]
      simp
    · refine .inr ⟨"param".toList ++ typeList inputs ++ [')', ' ', '('] ++
        "result".toList ++ typeList outputs, by simp, ?_⟩
      rw [blockType, String.toList_append, toList_typeGroup hinputs, toList_typeGroup houtputs]
      simp

theorem apart_blockType (inputs outputs : StackType) : Apart (blockType inputs outputs).toList := by
  rcases blockType_shape inputs outputs with ⟨-, -, h⟩ | ⟨middle, -, h⟩
  · rw [h]
    rfl
  · rw [h]
    rfl

theorem spaced_blockType (inputs outputs : StackType) :
    Spaced (blockType inputs outputs).toList := by
  have hgroup : ∀ (keyword : String) (ts : StackType), Spaced keyword.toList →
      Spaced (typeGroup keyword ts).toList := by
    intro keyword ts hkeyword
    by_cases hts : ts = []
    · rw [hts, typeGroup_nil]
      exact fun c hc => by simp at hc
    · have hparts : (typeGroup keyword ts).toList =
          [' ', '('] ++ (keyword.toList ++ typeList ts ++ [')']) := by
        rw [toList_typeGroup hts]
        simp
      rw [hparts]
      exact .append (by decide) ((hkeyword.append (spaced_typeList ts)).append (by decide))
  rw [blockType, String.toList_append]
  exact (hgroup _ _ (by decide)).append (hgroup _ _ (by decide))

theorem trimEnd_blockType (hname : IsWord name) (inputs outputs : StackType) :
    trimEnd (name ++ (blockType inputs outputs).toList) =
      name ++ (blockType inputs outputs).toList := by
  rcases blockType_shape inputs outputs with ⟨-, -, h⟩ | ⟨middle, -, h⟩
  · have hend : trimEnd ([] ++ name) = [] ++ name := trimEnd_word hname
    simpa [h] using hend
  · rw [h, ← append_assoc]
    exact trimEnd_eq_self_of_last (by decide)

theorem readCall_blockType (hname : IsWord name) (inputs outputs : StackType) :
    readCall (name ++ (blockType inputs outputs).toList) =
      .ok (.call (String.ofList name) inputs outputs) := by
  have hword := splitWord_word (b := []) (by decide) hname (apart_blockType inputs outputs)
  rw [nil_append] at hword
  rw [readCall_eq_ok_iff, hword]
  exact ⟨inputs, outputs, CallType.trimStart_iff.2 (callType_blockType inputs outputs), rfl⟩

end Source

/-! ### Variables -/

theorem isWord_dollar {name : String} (h : IsWord name.toList) : IsWord ("$" ++ name).toList := by
  rw [String.toList_append]
  exact .cons (by decide) h.noBlank

def Number.Binary.ReadsBack {f : Format} (v : Binary f) : Prop :=
  Binary.ofChars? f v.display.toList = some v

instance {f : Format} (v : Binary f) : Decidable v.ReadsBack := inferInstanceAs (Decidable (_ = _))

theorem Number.Binary.ReadsBack.isWord {f : Format} {v : Binary f} (h : v.ReadsBack) :
    IsWord v.display.toList := by
  refine ⟨fun hnil => ?_, solid_ofChars? h⟩
  rw [ReadsBack, hnil] at h
  cases h

def Instruction.IsFlat (n : Nat) : Instruction → Prop
  | .f32Const v => v.ReadsBack
  | .f64Const v => v.ReadsBack
  | .localGet l => l.index < n
  | .localSet l => l.index < n
  | .call name _ _ => IsWord name.toList
  | .comment text => trim text.toList = text.toList ∧ '\n' ∉ text.toList
  | .cond .. => False
  | .loop .. => False
  | .br _ => False
  | .brIf _ => False
  | .switch .. => False
  | _ => True

def Locals.Finds (locals table : Locals) (n : Nat) : Prop :=
  ∀ l : LocalId, l.index < n → IsWord (locals.name l).toList ∧ table.lookup (locals.name l) = some l

/-- A line that is read as an instruction. -/
structure Source.LineOf (table : Locals) (i : Instruction) (line : List Char) : Prop where
  starts : ∃ word rest, line = word ++ rest ∧ IsWord word
  oneLine : OneLine line
  reads : readInstruction table (trim line) = .ok i

namespace Source.LineOf

variable {table locals : Locals} {i : Instruction}

theorem alone (hword : IsWord word.toList ∧ word.toList.head? ≠ some ';') (h : Alone word i) :
    LineOf table i word.toList := by
  have htrim : trim (word.toList ++ []) = word.toList ++ [] := trim_word hword.1
  rw [append_nil] at htrim
  refine ⟨⟨word.toList, [], by simp, hword.1⟩, hword.1.spaced.oneLine, ?_⟩
  rw [htrim, readInstruction_eq_ok_iff (stripHead?_mark hword.2), splitWord_alone hword.1,
    String.ofList_toList]
  exact .alone h

theorem operand {first rest : List Char} (hword : IsWord word.toList ∧ word.toList.head? ≠ some ';')
    (hfirst : IsWord first) (hrest : Spaced rest) (hend : trimEnd (first ++ rest) = first ++ rest)
    (hreads : Reads table word (first ++ rest) i) :
    LineOf table i (word.toList ++ ' ' :: (first ++ rest)) := by
  have hspaced : Spaced (word.toList ++ ' ' :: (first ++ rest)) :=
    hword.1.spaced.append (.append (by decide : Spaced [' ']) (hfirst.spaced.append hrest))
  have hspace : trimEnd ([' '] ++ (first ++ rest)) = [' '] ++ (first ++ rest) := by
    rw [trimEnd_append, hend, if_neg (by simp [hfirst.nonempty])]
  have hsplit : splitWord (word.toList ++ ' ' :: (first ++ rest)) = (word.toList, first ++ rest) := by
    have hskip : trimStart ([' '] ++ (first ++ rest)) = first ++ rest := by
      rw [trimStart_blank (by decide), trimStart_word hfirst]
    have hcut := splitWord_word (b := []) (by decide) hword.1
      (rfl : Apart ([' '] ++ (first ++ rest)))
    rwa [hskip] at hcut
  refine ⟨⟨word.toList, _, rfl, hword.1⟩, hspaced.oneLine, ?_⟩
  rw [trim_word hword.1]
  show readInstruction table (word.toList ++ trimEnd ([' '] ++ (first ++ rest))) = .ok i
  have hmark : stripHead? [';', ';'] (word.toList ++ ([' '] ++ (first ++ rest))) = none := by
    refine stripHead?_mark ?_
    rw [head?_append_of_ne_nil _ hword.1.nonempty]
    exact hword.2
  rw [hspace, readInstruction_eq_ok_iff hmark]
  rwa [singleton_append, hsplit, String.ofList_toList]

theorem comment {text : List Char} (htrim : trim text = text) (hfeed : '\n' ∉ text) :
    LineOf table (.comment (String.ofList text)) (';' :: ';' :: ' ' :: text) := by
  have hmark : IsWord [';', ';'] := by decide
  obtain ⟨hstart, hend⟩ := trimStart_and_trimEnd_eq_self htrim
  have hlast : (';' :: ';' :: ' ' :: text).getLast? ≠ some '\r' := by
    cases htext : text.getLast? with
    | none =>
      rw [getLast?_eq_none_iff] at htext
      simp [htext]
    | some c =>
      have hc := isBlank_getLast? hend htext
      rintro hreturn
      simp only [getLast?_cons, htext, Option.getD_some, Option.some.injEq] at hreturn
      rw [hreturn] at hc
      exact absurd hc (by decide)
  refine ⟨⟨[';', ';'], _, rfl, hmark⟩, ⟨by simpa using hfeed, hlast⟩, ?_⟩
  show readInstruction table (trim ([';', ';'] ++ ([' '] ++ text))) = _
  rw [trim_word hmark, readInstruction, stripHead?_append]
  show Except.ok (Instruction.comment (String.ofList (trim (trimEnd ([' '] ++ text))))) = _
  have hback : trim (trimEnd ([' '] ++ text)) = text := by
    rw [trimEnd_append, hend]
    by_cases hempty : text = []
    · simp [hempty, trim, trimStart, trimEnd, Text.isBlank]
    · rw [if_neg hempty, trim_blank (by decide), htrim]
  rw [hback]

theorem of_append (word : String) {start text : String} (hstart : start = word ++ " ")
    (h : LineOf table i (word.toList ++ ' ' :: text.toList)) :
    LineOf table i (start ++ text).toList := by
  simpa [hstart] using h

theorem exists_operand {s op : String} (hword : IsWord word.toList ∧ word.toList.head? ≠ some ';')
    (hstart : s = word ++ " ") (hop : IsWord op.toList) (h : Operand table op.toList word i)
    (hrender : i.render locals 0 = [s ++ op]) :
    ∃ line, i.render locals 0 = [line] ∧ LineOf table i line.toList := by
  have hend : trimEnd ([] ++ op.toList) = [] ++ op.toList := trimEnd_word hop
  have hline : LineOf table i (word.toList ++ ' ' :: (op.toList ++ [])) :=
    operand hword hop (by decide) (by simpa using hend) (by simpa using .operand h)
  exact ⟨_, hrender, of_append word hstart (by simpa using hline)⟩

end Source.LineOf

namespace Instruction

open Source

/-- **A flat instruction is rendered as one line, which is read as the instruction.** -/
theorem exists_line {locals table : Locals} {n : Nat} (hfinds : locals.Finds table n)
    {i : Instruction} (hflat : i.IsFlat n) :
    ∃ line, Instruction.render locals 0 i = [line] ∧ LineOf table i line.toList := by
  have hindent : ∀ text, indented 0 text = text := fun text => by simp [indented, String.join]
  cases i with
  | i32Const v =>
    exact LineOf.exists_operand (s := "i32.const ") (by decide) (by decide) (isWord_toString_int _)
      (.i32Const (int32?_toString v)) (by rw [Instruction.render, hindent])
  | i64Const v =>
    exact LineOf.exists_operand (s := "i64.const ") (by decide) (by decide) (isWord_toString_int _)
      (.i64Const (int64?_toString v)) (by rw [Instruction.render, hindent])
  | f32Const v =>
    exact LineOf.exists_operand (s := "f32.const ") (by decide) (by decide) (Binary.ReadsBack.isWord hflat) (.f32Const hflat)
      (by rw [Instruction.render, hindent])
  | f64Const v =>
    exact LineOf.exists_operand (s := "f64.const ") (by decide) (by decide) (Binary.ReadsBack.isWord hflat) (.f64Const hflat)
      (by rw [Instruction.render, hindent])
  | localGet l =>
    obtain ⟨hname, hlookup⟩ := hfinds l hflat
    refine LineOf.exists_operand (s := "local.get ") (by decide) (by decide) (isWord_dollar hname)
      (.localGet ⟨_, hlookup, .inl (by simp)⟩) ?_
    rw [Instruction.render, hindent, ← String.append_assoc]
    rfl
  | localSet l =>
    obtain ⟨hname, hlookup⟩ := hfinds l hflat
    refine LineOf.exists_operand (s := "local.set ") (by decide) (by decide) (isWord_dollar hname)
      (.localSet ⟨_, hlookup, .inl (by simp)⟩) ?_
    rw [Instruction.render, hindent, ← String.append_assoc]
    rfl
  | call name inputs outputs =>
    have hname : IsWord name.toList := hflat
    refine ⟨"call " ++ (name ++ blockType inputs outputs), ?_, .of_append "call" (by decide) ?_⟩
    · rw [Instruction.render, hindent, ← String.append_assoc]
    · rw [String.toList_append]
      refine .operand (by decide) hname (spaced_blockType inputs outputs) (trimEnd_blockType hname ..) ?_
      exact .call (by rw [readCall_blockType hname, String.ofList_toList])
  | comment text =>
    refine ⟨_, by rw [Instruction.render, hindent], ?_⟩
    have hline : LineOf table _ _ := .comment hflat.1 hflat.2
    simpa using hline
  | numeric op =>
    obtain ⟨hword, hhead, -, -⟩ := op.mnemonic_spec
    exact ⟨_, by rw [Instruction.render, hindent], .alone ⟨hword, hhead⟩ (.numeric op)⟩
  | drop => exact ⟨_, by rw [Instruction.render, hindent], .alone (by decide) .drop⟩
  | unreachable => exact ⟨_, by rw [Instruction.render, hindent], .alone (by decide) .unreachable⟩
  | ret => exact ⟨_, by rw [Instruction.render, hindent], .alone (by decide) .ret⟩
  | cond => exact hflat.elim
  | loop => exact hflat.elim
  | br => exact hflat.elim
  | brIf => exact hflat.elim
  | switch => exact hflat.elim

end Instruction

end Structurer
