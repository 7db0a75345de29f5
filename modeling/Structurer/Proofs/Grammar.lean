/-
**The grammar of instructions.**

A line is a mnemonic followed by exactly its operands: a number, a variable, a name with groups of
types, or nothing.  The reader accepts these lines and a few more, all of which are listed here: what
follows `drop`, `unreachable` and `return` is not looked at, and a `call` need not name anything.
-/

import Structurer.Proofs.Numerals
import Structurer.Proofs.Spelling
import Structurer.Proofs.Upkeep

namespace Structurer

open Text List

variable {cs name rest type b w : List Char} {inputs outputs : StackType}

namespace Text

theorem splitWord_trimStart : splitWord (trimStart cs) = splitWord cs := by
  rw [splitWord, trimStart_trimStart, splitWord]

theorem Apart.ne_nil (h : Apart (b ++ (w ++ rest))) (hw : IsWord w) : b ≠ [] := by
  rintro rfl
  cases w with
  | nil => exact hw.nonempty rfl
  | cons c w => simp [Apart, hw.noBlank c] at h

theorem Apart.append (h : Apart cs) (hrest : Apart rest) : Apart (cs ++ rest) := by
  cases cs with
  | nil => exact hrest
  | cons c cs => exact h

end Text

namespace Source

open Number

variable {table : Locals} {m : String} {line v : List Char} {i j : Instruction}

/-! ### Lines of the grammar -/

def IsCall (name : List Char) (inputs outputs : StackType) (line : List Char) : Prop :=
  ∃ b gap type, Blank b ∧ Gap gap ∧ IsWord name ∧ Apart type ∧ CallType inputs outputs type ∧
    line = b ++ ("call".toList ++ (gap ++ (name ++ type)))

/-- The grammar: a mnemonic and exactly its operands. -/
inductive Spells (table : Locals) (line : List Char) : Instruction → Prop
  | alone {m : String} {i : Instruction} (h : Alone m i) (hwords : words line = [m.toList]) :
      Spells table line i
  | operand {m : String} {w : List Char} {i : Instruction} (h : Operand table w m i)
      (hwords : words line = [m.toList, w]) : Spells table line i
  | call {name : List Char} {inputs outputs : StackType} (h : IsCall name inputs outputs line)
      (hname : name.head? ≠ some '(') : Spells table line (.call (String.ofList name) inputs outputs)

/-- What is accepted beyond the grammar: words behind a mnemonic that is not followed by any, a call
of nothing, a call of a group of types, and the variable of the empty name. -/
inductive Overlooks (table : Locals) (line : List Char) : Instruction → Prop
  | stray {m : String} {w : List Char} {ws : List (List Char)} {i : Instruction} (h : Alone m i)
      (hm : m ∈ heedless) (hwords : words line = m.toList :: w :: ws) : Overlooks table line i
  | nameless (hwords : words line = ["call".toList]) : Overlooks table line (.call "" [] [])
  | grouped {name : List Char} {inputs outputs : StackType} (h : IsCall name inputs outputs line)
      (hname : name.head? = some '(') : Overlooks table line (.call (String.ofList name) inputs outputs)
  | unnamed {m : String} {i : Instruction} (h : Operand table [] m i)
      (hwords : words line = [m.toList]) : Overlooks table line i

/-! ### Mnemonics -/

theorem Operand.solid (htable : ∀ name ∈ table.names, Solid name.toList) (h : Operand table w m i) :
    Solid w := by
  have hnames : ∀ {l : LocalId}, Names table w l → Solid w := by
    rintro l ⟨name, hlookup, hname⟩
    have hmem : name ∈ table.names := by
      by_contra hnone
      rw [Locals.lookup_eq_none_iff.2 hnone] at hlookup
      cases hlookup
    rcases hname with rfl | ⟨rfl, -⟩
    · exact (htable name hmem).cons (by decide)
    · exact htable name hmem
  cases h with
  | i32Const h => exact solid_int32? h
  | i64Const h => exact solid_int64? h
  | f32Const h | f64Const h => exact solid_ofChars? h
  | localGet h | localSet h => exact hnames h

theorem Operand.mem (h : Operand table w m i) :
    m ∈ ["i32.const", "i64.const", "f32.const", "f64.const", "local.get", "local.set"] := by
  cases h <;> decide

theorem Alone.mnemonic (h : Alone m i) : IsWord m.toList ∧ m.toList.head? ≠ some ';' := by
  cases h with
  | numeric op => exact ⟨op.mnemonic_spec.1, op.mnemonic_spec.2.1⟩
  | _ => decide

theorem Reads.mnemonic (h : Reads table m w i) : IsWord m.toList ∧ m.toList.head? ≠ some ';' := by
  cases h with
  | alone h | heedless h => exact h.mnemonic
  | operand h => cases h <;> decide
  | call => decide

theorem Alone.notMem (h : Alone m i) : m ∉ ["i32.const", "i64.const", "f32.const", "f64.const",
    "local.get", "local.set", "call"] := by
  cases h with
  | numeric op =>
    have hspec := op.mnemonic_spec.2.2.1
    simp only [mem_cons, not_or] at hspec ⊢
    simp [hspec]
  | _ => decide

theorem Alone.mem_heedless_iff (h : Alone m i) :
    m ∈ heedless ↔ i = .drop ∨ i = .unreachable ∨ i = .ret := by
  cases h with
  | numeric op =>
    refine iff_of_false (fun hm => op.mnemonic_spec.2.2.1 ((by decide : heedless ⊆ _) hm)) ?_
    simp
  | _ => simp [heedless]

/-! ### What is accepted -/

theorem splitWord_of_reads
    (h : Reads table (String.ofList (splitWord line).1) (splitWord line).2 i) :
    ∃ b m tail, Blank b ∧ IsWord m ∧ Apart tail ∧ line = b ++ (m ++ tail) ∧
      Reads table (String.ofList m) (trimStart tail) i := by
  rcases splitWord_cases line with ⟨-, hsplit⟩ | ⟨b, m, tail, hb, hm, htail, hline, hsplit⟩
  · rw [hsplit] at h
    exact absurd h.mnemonic.1 (by decide)
  · rw [hsplit] at h
    exact ⟨b, m, tail, hb, hm, htail, hline, h⟩

theorem CallType.eq_nil (h : CallType inputs outputs []) : inputs = [] ∧ outputs = [] := by
  generalize hnil : ([] : List Char) = cs at h
  cases h with
  | nil => exact ⟨rfl, rfl⟩
  | param | result => simp [inParens] at hnil

theorem spells_or_overlooks (htable : ∀ name ∈ table.names, Solid name.toList)
    (hline : Reads table (String.ofList (splitWord line).1) (splitWord line).2 i) :
    Spells table line i ∨ Overlooks table line i := by
  obtain ⟨b, m, tail, hb, hm, htail, rfl, h⟩ := splitWord_of_reads hline
  have hwords : words (b ++ (m ++ tail)) = (String.ofList m).toList :: words (trimStart tail) := by
    rw [words_blank hb, words_word hm htail, words_trimStart, String.toList_ofList]
  generalize hmnemonic : String.ofList m = mnemonic at h hwords
  generalize hrest : trimStart tail = rest at h hwords
  cases h with
  | alone h => exact .inl (.alone h hwords)
  | heedless h hm =>
    cases hws : words rest with
    | nil => exact .inl (.alone h (by rw [hwords, hws]))
    | cons w ws => exact .inr (.stray h hm (by rw [hwords, hws]))
  | operand h =>
    by_cases hempty : rest = []
    · subst hempty
      exact .inr (.unnamed h hwords)
    · rw [words_alone ⟨hempty, h.solid htable⟩] at hwords
      exact .inl (.operand h hwords)
  | call h =>
    obtain ⟨inputs, outputs, htype, rfl⟩ := readCall_eq_ok_iff.1 h
    rw [← hrest, splitWord_trimStart] at htype ⊢
    rcases splitWord_cases tail with
      ⟨hblank, hsplit⟩ | ⟨gap, name, type, hgap, hname, happart, rfl, hsplit⟩
    · rw [hsplit] at htype ⊢
      obtain ⟨rfl, rfl⟩ := htype.eq_nil
      rw [← hrest, trimStart_eq_nil_iff.2 hblank] at hwords
      exact .inr (.nameless hwords)
    · rw [hsplit] at htype ⊢
      have hcall : IsCall name inputs outputs (b ++ (m ++ (gap ++ (name ++ type)))) := by
        refine ⟨b, gap, type, hb, ⟨htail.ne_nil hname, hgap⟩, hname, happart,
          CallType.trimStart_iff.1 htype, ?_⟩
        rw [← hmnemonic, String.toList_ofList]
      by_cases hgroup : name.head? = some '('
      · exact .inr (.grouped hcall hgroup)
      · exact .inl (.call hcall hgroup)

theorem splitWord_mnemonic (hwords : words line = [w]) : splitWord line = (w, []) := by
  obtain ⟨b, tail, hb, hw, htail, rfl, hnone⟩ := exists_of_words hwords
  rw [splitWord_word hb hw htail, trimStart_eq_nil_iff.2 (blank_of_words hnone)]

theorem splitWord_operand (hwords : words line = [w, v]) (hend : trimEnd line = line) :
    splitWord line = (w, v) := by
  obtain ⟨b, tail, hb, hw, htail, rfl, htailWords⟩ := exists_of_words hwords
  obtain ⟨gap, rest, hgap, hv, -, rfl, hnone⟩ := exists_of_words htailWords
  have hrest : rest = [] := by
    rw [trimEnd_gap hw, trimEnd_gap hv, trimEnd_eq_nil_iff.2 (blank_of_words hnone)] at hend
    simpa using hend
  rw [splitWord_word hb hw htail, hrest, trimStart_gap hgap hv, append_nil]

theorem IsCall.splitWord_eq (h : IsCall name inputs outputs line) :
    ∃ rest, splitWord line = ("call".toList, rest) ∧
      readCall rest = .ok (.call (String.ofList name) inputs outputs) := by
  obtain ⟨b, gap, type, hb, hgap, hname, hapart, htype, rfl⟩ := h
  refine ⟨_, splitWord_word hb (by decide) (hgap.blank.apart hgap.nonempty), ?_⟩
  have hsplit : splitWord (trimStart (gap ++ (name ++ type))) = (name, trimStart type) := by
    rw [splitWord_trimStart, splitWord_word hgap.blank hname hapart]
  rw [readCall_eq_ok_iff, hsplit]
  exact ⟨inputs, outputs, CallType.trimStart_iff.2 htype, rfl⟩

theorem reads_of_spells_or_overlooks (hend : trimEnd line = line)
    (h : Spells table line i ∨ Overlooks table line i) :
    Reads table (String.ofList (splitWord line).1) (splitWord line).2 i := by
  have hcall : ∀ {name : List Char} {inputs outputs : StackType}, IsCall name inputs outputs line →
      Reads table (String.ofList (splitWord line).1) (splitWord line).2
        (.call (String.ofList name) inputs outputs) := by
    intro name inputs outputs h
    obtain ⟨rest, hsplit, hread⟩ := h.splitWord_eq
    rw [hsplit]
    exact .call hread
  rcases h with h | h
  · cases h with
    | alone h hwords =>
      rw [splitWord_mnemonic hwords, String.ofList_toList]
      exact .alone h
    | operand h hwords =>
      rw [splitWord_operand hwords hend, String.ofList_toList]
      exact .operand h
    | call h => exact hcall h
  · cases h with
    | stray h hm hwords =>
      obtain ⟨rest, hsplit, -⟩ := splitWord_of_words hwords
      rw [hsplit, String.ofList_toList]
      exact .heedless h hm
    | nameless hwords =>
      rw [splitWord_mnemonic hwords]
      exact .call rfl
    | grouped h => exact hcall h
    | unnamed h hwords =>
      rw [splitWord_mnemonic hwords, String.ofList_toList]
      exact .operand h

theorem IsCall.words_eq (h : IsCall name inputs outputs line) :
    ∃ ws, words line = "call".toList :: name :: ws := by
  obtain ⟨b, gap, type, hb, hgap, hname, hapart, -, rfl⟩ := h
  rw [words_blank hb, words_word (by decide) (hgap.blank.apart hgap.nonempty), words_blank hgap.blank,
    words_word hname hapart]
  exact ⟨_, rfl⟩

theorem Overlooks.not_spells (h : Overlooks table line i) : ¬ Spells table line j := by
  have halone : ∀ {m m' v} {i j}, Alone m i → Operand table v m' j → m.toList ≠ m'.toList := by
    intro m m' v i j h h' heq
    exact h.notMem (String.toList_inj.1 heq ▸ mem_append_left ["call"] h'.mem)
  have hcall : ∀ {m i}, Alone m i → m.toList ≠ "call".toList := by
    intro m i h heq
    rw [String.toList_inj.1 heq] at h
    exact h.notMem (by decide)
  intro hspells
  cases h with
  | stray h _ hwords =>
    cases hspells with
    | alone _ hwords' => simp [hwords] at hwords'
    | operand h' hwords' => exact halone h h' (by simp_all)
    | call h' =>
      obtain ⟨ws, hwords'⟩ := h'.words_eq
      exact hcall h (by simp_all)
  | nameless hwords =>
    cases hspells with
    | alone h' hwords' => exact hcall h' (by simp_all)
    | operand h' hwords' => simp [hwords] at hwords'
    | call h' =>
      obtain ⟨ws, hwords'⟩ := h'.words_eq
      simp [hwords] at hwords'
  | grouped h hname =>
    obtain ⟨ws, hwords⟩ := h.words_eq
    cases hspells with
    | alone h' hwords' => simp [hwords] at hwords'
    | @operand m _ _ h' hwords' =>
      have hm : m.toList = "call".toList := by simp_all
      rw [String.toList_inj.1 hm] at h'
      exact absurd h'.mem (by decide)
    | call h' hname' =>
      obtain ⟨ws', hwords'⟩ := h'.words_eq
      simp_all
  | unnamed h hwords =>
    cases hspells with
    | alone h' hwords' => exact halone h' h (by simp_all)
    | operand h' hwords' => simp [hwords] at hwords'
    | call h' =>
      obtain ⟨ws, hwords'⟩ := h'.words_eq
      simp [hwords] at hwords'

/-! ### A further word -/

theorem inParens_append (group rest cs : List Char) :
    inParens group rest ++ cs = inParens group (rest ++ cs) := by
  simp [inParens]

theorem readInstruction_mnemonic (hb : Blank b) (hm : IsWord m.toList ∧ m.toList.head? ≠ some ';')
    (hrest : Apart rest) :
    readInstruction table (b ++ (m.toList ++ rest)) = .ok i ↔ Reads table m (trimStart rest) i := by
  have hmark : stripHead? [';', ';'] (b ++ (m.toList ++ rest)) = none := by
    apply stripHead?_mark
    cases b with
    | nil => simpa [head?_append, hm.1.nonempty] using hm.2
    | cons c b =>
      rintro ⟨⟩
      exact absurd (hb ';' (.head _)) (by decide)
  rw [readInstruction_eq_ok_iff hmark, splitWord_word hb hm.1 hrest, String.ofList_toList]

theorem readCallType_extend {inputs outputs : StackType} {type : List Char}
    (h : CallType inputs outputs type) (hb : Blank b) (hw : IsWord w) (hparen : w.head? ≠ some '(')
    (fuel : Nat) (ins outs : StackType) (r : StackType × StackType) :
    readCallType fuel ins outs (type ++ (b ++ w)) ≠ .ok r := by
  induction h generalizing fuel ins outs with
  | @nil b' hb' =>
    cases fuel with
    | zero => simp [readCallType]
    | succ fuel =>
      have htrim : trim (b' ++ (b ++ w)) = w := by
        rw [trim_blank hb', trim_blank hb]
        rw [← append_nil w, trim_word hw, trimEnd]
      rw [readCallType, trimStart_blank hb', trimStart_blank hb, htrim]
      cases w with
      | nil => exact absurd rfl hw.nonempty
      | cons c w =>
        have hc : '(' ≠ c := by simpa [eq_comm] using hparen
        simp [trimStart, hw.noBlank c, stripHead?, hc]
  | param hb' hgroup _ ih =>
    cases fuel with
    | zero => simp [readCallType]
    | succ fuel =>
      rw [append_assoc, inParens_append, readCallType_param hb' hgroup]
      exact ih _ _ _
  | result hb' hgroup _ ih =>
    cases fuel with
    | zero => simp [readCallType]
    | succ fuel =>
      rw [append_assoc, inParens_append, readCallType_result hb' hgroup]
      exact ih _ _ _

section Extension

variable (hb : Gap b) (hw : IsWord w)

include hb hw

theorem Alone.extend_iff (h : Alone m i) (hrest : Blank rest) :
    (∃ j, Reads table m (trimStart (rest ++ (b ++ w))) j) ↔ m ∈ heedless := by
  have hstart : trimStart (rest ++ (b ++ w)) = w := by
    rw [trimStart_blank hrest, trimStart_blank hb.blank, ← append_nil w, trimStart_word hw]
  rw [hstart]
  constructor
  · rintro ⟨j, hj⟩
    cases hj with
    | alone => exact absurd rfl hw.nonempty
    | heedless _ hm => exact hm
    | operand hj => exact absurd (mem_append_left ["call"] hj.mem) h.notMem
    | call => exact absurd (by decide) h.notMem
  · exact fun hm => ⟨i, .heedless h hm⟩

theorem Operand.not_extend (htable : ∀ name ∈ table.names, Solid name.toList)
    (h : Operand table v m i) (hrest : trimStart rest ≠ []) :
    ¬ Reads table m (trimStart (rest ++ (b ++ w))) j := by
  have hne : trimStart rest ++ (b ++ w) ≠ [] := by simp [hw.nonempty]
  rw [trimStart_append, if_neg hrest]
  generalize hcs : trimStart rest ++ (b ++ w) = cs at hne
  intro hj
  cases hj with
  | alone => exact hne rfl
  | heedless _ hm => exact (by decide : ∀ m ∈ heedless, m ∉ _) _ hm h.mem
  | operand hj =>
    obtain ⟨c, hc⟩ := exists_mem_of_ne_nil b hb.nonempty
    have hsolid : isBlank c = false := hj.solid htable c (by simp [← hcs, hc])
    rw [hb.blank c hc] at hsolid
    cases hsolid
  | call => exact absurd h.mem (by decide)

theorem CallType.not_extend {inputs outputs : StackType} {gap name type : List Char}
    (h : CallType inputs outputs type) (hgap : Blank gap) (hname : IsWord name) (htype : Apart type)
    (hparen : w.head? ≠ some '(') :
    ¬ Reads table "call" (trimStart (gap ++ (name ++ (type ++ (b ++ w))))) j := by
  intro hj
  generalize hm : "call" = m at hj
  generalize hrest : trimStart (gap ++ (name ++ (type ++ (b ++ w)))) = rest at hj
  cases hj with
  | alone h | heedless h => exact h.notMem (by simp [← hm])
  | operand h => exact absurd h.mem (by rw [← hm]; decide)
  | call hread =>
    obtain ⟨ins, outs, hext, -⟩ := readCall_eq_ok_iff.1 hread
    rw [← hrest, splitWord_trimStart, splitWord_word hgap hname
      (htype.append (hb.blank.apart hb.nonempty)), CallType.trimStart_iff] at hext
    have hok : readCallType _ [] [] (type ++ (b ++ w)) = .ok (ins, outs) :=
      (readCallType_eq_ok_iff (Nat.lt_succ_self _)).2 ⟨ins, outs, hext, rfl⟩
    exact readCallType_extend h hb.blank hw hparen _ _ _ _ hok

/-- **A line of the grammar that goes on with a further word, which opens no group, is accepted only
behind the three mnemonics that do not look at it.** -/
theorem Spells.extend_iff (htable : ∀ name ∈ table.names, Solid name.toList)
    (h : Spells table line i) (hparen : w.head? ≠ some '(') :
    (∃ j, readInstruction table (line ++ (b ++ w)) = .ok j) ↔
      i = .drop ∨ i = .unreachable ∨ i = .ret := by
  have hapart : Apart (b ++ w) := hb.blank.apart hb.nonempty
  cases h with
  | alone h hwords =>
    obtain ⟨b', rest, hb', -, hrest, rfl, hnone⟩ := exists_of_words hwords
    simp only [append_assoc, readInstruction_mnemonic hb' h.mnemonic (hrest.append hapart)]
    rw [h.extend_iff hb hw (blank_of_words hnone), h.mem_heedless_iff]
  | operand h hwords =>
    obtain ⟨b', rest, hb', -, hrest, rfl, hv⟩ := exists_of_words hwords
    simp only [append_assoc,
      readInstruction_mnemonic hb' (Reads.operand h).mnemonic (hrest.append hapart)]
    have hne : trimStart rest ≠ [] := by
      intro hnil
      rw [← words_trimStart, hnil] at hv
      cases hv
    refine iff_of_false ?_ (by cases h <;> simp)
    rintro ⟨j, hj⟩
    exact h.not_extend hb hw htable hne hj
  | call h =>
    obtain ⟨b', gap, type, hb', hgap, hname, hapart', htype, rfl⟩ := h
    simp only [append_assoc, readInstruction_mnemonic (m := "call") hb' (by decide)
      (hgap.blank.apart hgap.nonempty)]
    refine iff_of_false ?_ (by simp)
    rintro ⟨j, hj⟩
    exact htype.not_extend hb hw hgap.blank hname hapart' hparen hj

end Extension

/-- **The grammar of instructions.**  A line that is accepted is a mnemonic with exactly its operands,
or one of the few lines that are accepted beyond the grammar; lines without blanks at the end are
accepted exactly then.  A line of the grammar with a further word, which opens no group of types, is
accepted only if the instruction is a `drop`, an `unreachable` or a `return`. -/
theorem readInstruction_grammar (table : Locals) (htable : ∀ name ∈ table.names, Solid name.toList)
    (line : List Char) (hmark : stripHead? [';', ';'] line = none) (i : Instruction) :
    (readInstruction table line = .ok i → Spells table line i ∨ Overlooks table line i) ∧
    (trimEnd line = line → Spells table line i ∨ Overlooks table line i →
      readInstruction table line = .ok i) ∧
    (Overlooks table line i → ¬ Spells table line i) ∧
    (∀ b w, Spells table line i → Gap b → IsWord w → w.head? ≠ some '(' →
      ((∃ j, readInstruction table (line ++ (b ++ w)) = .ok j) ↔
        i = .drop ∨ i = .unreachable ∨ i = .ret)) := by
  rw [readInstruction_eq_ok_iff hmark]
  exact ⟨spells_or_overlooks htable, reads_of_spells_or_overlooks, Overlooks.not_spells,
    fun b w h hb hw hparen => h.extend_iff hb hw htable hparen⟩

def oneLocal : Locals := ⟨#[⟨"x", .i32⟩], []⟩

/-- A variable is read, and nothing may follow it. -/
theorem readInstruction_grammar_localGet :
    readInstruction oneLocal "local.get $x".toList = .ok (.localGet ⟨0⟩) ∧
      ∀ j, readInstruction oneLocal "local.get $x y".toList ≠ .ok j := by
  obtain ⟨-, haccepts, -, hextend⟩ := readInstruction_grammar oneLocal
    (by decide) "local.get $x".toList (by decide) (.localGet ⟨0⟩)
  have hspells : Spells oneLocal "local.get $x".toList (.localGet ⟨0⟩) :=
    .operand (.localGet ⟨"x", by decide +kernel, .inl rfl⟩) (by decide)
  refine ⟨haccepts (by decide) (.inl hspells), fun j hj => ?_⟩
  simpa using (hextend [' '] ['y'] hspells (by decide) (by decide) (by decide)).1 ⟨j, hj⟩

/-- The grammar is not all that is accepted: a word behind `drop` is not looked at, and a call need not
have a name. -/
theorem readInstruction_overlooks :
    (readInstruction .empty "drop x".toList = .ok .drop ∧ ¬ Spells .empty "drop x".toList .drop) ∧
    (readInstruction .empty "call".toList = .ok (.call "" [] []) ∧
      ¬ Spells .empty "call".toList (.call "" [] [])) := by
  have hstray : words "drop x".toList = "drop".toList :: "x".toList :: [] := by decide
  exact ⟨⟨rfl, Overlooks.not_spells (.stray .drop (by decide) hstray)⟩,
    rfl, Overlooks.not_spells (.nameless (by decide))⟩

end Source

end Structurer
