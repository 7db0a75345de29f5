/-
**How instructions are spelled.**

A line of a source is a mnemonic and what follows it.  This module says, mnemonic by mnemonic, which
texts the reader accepts behind it, and what it reads them as.
-/

import Structurer.Proofs.Fallible
import Structurer.Proofs.Words
import Structurer.Source.Instruction

namespace Structurer

open Text Number List

variable {cs w inner line : List Char} {ts : StackType} {i : Instruction} {table : Locals}

/-! ### Words in a line -/

namespace Source

/-- The blanks between two words. -/
structure Gap (b : List Char) : Prop where
  nonempty : b ≠ []
  blank : Blank b

instance (b : List Char) : Decidable (Gap b) :=
  decidable_of_iff (b ≠ [] ∧ Blank b) ⟨fun h => ⟨h.1, h.2⟩, fun h => ⟨h.1, h.2⟩⟩

def inParens (cs rest : List Char) : List Char := ['('] ++ (cs ++ ([')'] ++ rest))

section Words

variable {b w v rest : List Char}

theorem trimStart_gap (hb : Blank b) (hv : IsWord v) : trimStart (b ++ (v ++ rest)) = v ++ rest := by
  rw [trimStart_blank hb, trimStart_word hv]

theorem splitWord_gap (hw : IsWord w) (hb : Gap b) (hv : IsWord v) :
    splitWord (w ++ (b ++ (v ++ rest))) = (w, v ++ rest) := by
  have hapart : Apart (b ++ (v ++ rest)) := hb.blank.apart hb.nonempty
  have hcut := splitWord_word (b := []) (by decide) hw hapart
  rwa [nil_append, trimStart_gap hb.blank hv] at hcut

theorem trimEnd_gap (hw : IsWord w) : trimEnd (b ++ (w ++ rest)) = b ++ (w ++ trimEnd rest) := by
  rw [← append_assoc, trimEnd_append, trimEnd_word hw]
  split
  · next h => rw [h, append_nil]
  · rw [append_assoc]

theorem not_mem_of_words {c : Char} (hc : isBlank c = false) (h : ∀ w ∈ words cs, c ∉ w) :
    c ∉ cs := by
  intro hmem
  have hfilter : c ∈ cs.filter (!isBlank ·) := by simp [hmem, hc]
  rw [← flatten_words] at hfilter
  obtain ⟨w, hw, hcw⟩ := mem_flatten.1 hfilter
  exact h w hw hcw

end Words

end Source

/-! ### Types -/

theorem ValueType.isWord_name (t : ValueType) : IsWord t.name.toList := by
  cases t <;> decide

namespace Source

theorem readType_eq_ok_iff {t : ValueType} : readType w = .ok t ↔ w = t.name.toList := by
  constructor
  · intro h
    unfold readType at h
    split at h
    next hname =>
      cases h
      rw [ValueType.name_of_ofName? hname, String.toList_ofList]
    next => cases h
  · rintro rfl
    simp [readType, String.ofList_toList]

theorem readTypes_eq_ok_iff : readTypes cs = .ok ts ↔ words cs = ts.map fun t => t.name.toList := by
  rw [readTypes]
  generalize words cs = ws
  induction ws generalizing ts with
  | nil => cases ts <;> simp [pure, Except.pure]
  | cons w ws ih =>
    rw [mapM_cons, Fallible.bind_eq_ok_iff]
    cases ts with
    | nil => simp [Fallible.bind_eq_ok_iff, pure, Except.pure]
    | cons t ts => simp [Fallible.bind_eq_ok_iff, pure, Except.pure, readType_eq_ok_iff, ih]

theorem close_not_mem (front : List (List Char)) {cs : List Char} {ts : StackType}
    (h : words cs = front ++ ts.map fun t => t.name.toList) (hfront : ∀ w ∈ front, ')' ∉ w) :
    ')' ∉ cs := by
  refine not_mem_of_words (by decide) fun w hw => ?_
  rw [h, mem_append] at hw
  rcases hw with hw | hw
  · exact hfront w hw
  · obtain ⟨t, -, rfl⟩ := mem_map.1 hw
    cases t <;> decide

/-! ### Calls -/

/-- The spelling of the type of a call: groups of types in parentheses, in any number and order. -/
inductive CallType : StackType → StackType → List Char → Prop
  | nil {b : List Char} (hb : Blank b) : CallType [] [] b
  | param {b group rest : List Char} {ts inputs outputs : StackType} (hb : Blank b)
      (hgroup : words group = ["param".toList] ++ ts.map fun t => t.name.toList)
      (hrest : CallType inputs outputs rest) : CallType (ts ++ inputs) outputs (b ++ inParens group rest)
  | result {b group rest : List Char} {ts inputs outputs : StackType} (hb : Blank b)
      (hgroup : words group = ["result".toList] ++ ts.map fun t => t.name.toList)
      (hrest : CallType inputs outputs rest) : CallType inputs (ts ++ outputs) (b ++ inParens group rest)

section CallTypes

variable {b group rest cs : List Char} {ts inputs outputs : StackType} {fuel : Nat}

theorem cut_parens (rest : List Char) (hb : Blank b) (hclose : ')' ∉ group) :
    ∃ inner, stripHead? ['('] (trimStart (b ++ inParens group rest)) = some inner ∧
      splitAtChar? ')' inner = some (group, rest) := by
  rw [inParens, trimStart_gap hb (by decide), stripHead?_append]
  exact ⟨_, rfl, splitAtChar?_eq_some_iff.2 ⟨hclose, rfl⟩⟩

theorem parens_of_cut
    (hinner : stripHead? ['('] (trimStart cs) = some inner)
    (hgroup : splitAtChar? ')' inner = some (group, rest)) :
    ∃ b, Blank b ∧ cs = b ++ inParens group rest := by
  obtain ⟨b, hb, hcs⟩ := exists_blank_append cs
  rw [stripHead?_eq_some_iff.1 hinner, (splitAtChar?_eq_some_iff.1 hgroup).2] at hcs
  exact ⟨b, hb, hcs⟩

theorem readCallType_param (hb : Blank b)
    (hgroup : words group = ["param".toList] ++ ts.map fun t => t.name.toList) :
    readCallType (fuel + 1) inputs outputs (b ++ inParens group rest) =
      readCallType fuel (inputs ++ ts) outputs rest := by
  obtain ⟨inner, hinner, hcut⟩ := cut_parens rest hb (close_not_mem [_] hgroup (by decide))
  obtain ⟨types, hword, htypes⟩ := splitWord_of_words hgroup
  rw [readCallType]
  simp only [hinner, hcut, hword, String.ofList_toList, readTypes_eq_ok_iff.2 htypes]
  rfl

theorem readCallType_result (hb : Blank b)
    (hgroup : words group = ["result".toList] ++ ts.map fun t => t.name.toList) :
    readCallType (fuel + 1) inputs outputs (b ++ inParens group rest) =
      readCallType fuel inputs (outputs ++ ts) rest := by
  obtain ⟨inner, hinner, hcut⟩ := cut_parens rest hb (close_not_mem [_] hgroup (by decide))
  obtain ⟨types, hword, htypes⟩ := splitWord_of_words hgroup
  rw [readCallType]
  simp only [hinner, hcut, hword, String.ofList_toList, readTypes_eq_ok_iff.2 htypes]
  rfl

/-- **Reading the type of a call.** -/
theorem readCallType_eq_ok_iff {r : StackType × StackType} (hfuel : cs.length < fuel) :
    readCallType fuel inputs outputs cs = .ok r ↔
      ∃ i o, CallType i o cs ∧ r = (inputs ++ i, outputs ++ o) := by
  induction fuel generalizing inputs outputs cs with
  | zero => omega
  | succ fuel ih =>
    have hlength : ∀ {b group rest : List Char}, (b ++ inParens group rest).length < fuel + 1 →
        rest.length < fuel := by
      intro b group rest h
      simp only [inParens, length_append, length_singleton] at h
      omega
    constructor
    · intro h
      rw [readCallType] at h
      split at h
      next =>
        split at h
        next hblank =>
          cases h
          exact ⟨[], [], .nil (trim_eq_nil_iff.1 hblank), by simp⟩
        next => cases h
      next inner hinner =>
        split at h
        next => cases h
        next group rest hgroup =>
          obtain ⟨b, hb, rfl⟩ := parens_of_cut hinner hgroup
          have hwords := words_eq_splitWord group
          dsimp only at h
          split at h
          next hkeyword =>
            obtain ⟨ts, hts, h⟩ := Fallible.bind_eq_ok_iff.1 h
            obtain ⟨i, o, hrest, rfl⟩ := (ih (hlength hfuel)).1 h
            rw [← String.toList_ofList (l := (splitWord group).1), hkeyword,
              readTypes_eq_ok_iff.1 hts] at hwords
            exact ⟨ts ++ i, o, .param hb hwords hrest, by simp⟩
          next hkeyword =>
            obtain ⟨ts, hts, h⟩ := Fallible.bind_eq_ok_iff.1 h
            obtain ⟨i, o, hrest, rfl⟩ := (ih (hlength hfuel)).1 h
            rw [← String.toList_ofList (l := (splitWord group).1), hkeyword,
              readTypes_eq_ok_iff.1 hts] at hwords
            exact ⟨i, ts ++ o, .result hb hwords hrest, by simp⟩
          next => cases h
    · rintro ⟨i, o, hcs, rfl⟩
      cases hcs with
      | nil hb =>
        rw [readCallType, trimStart_eq_nil_iff.2 hb, trim_eq_nil_iff.2 hb]
        simp [stripHead?]
      | param hb hgroup hrest =>
        rw [readCallType_param hb hgroup]
        exact (ih (hlength hfuel)).2 ⟨_, _, hrest, by simp⟩
      | result hb hgroup hrest =>
        rw [readCallType_result hb hgroup]
        exact (ih (hlength hfuel)).2 ⟨_, _, hrest, by simp⟩

theorem CallType.blank (hb : Blank b) (h : CallType inputs outputs cs) :
    CallType inputs outputs (b ++ cs) := by
  have happend : ∀ {b' : List Char}, Blank b' → Blank (b ++ b') := fun hb' c hc =>
    (mem_append.1 hc).elim (hb c) (hb' c)
  cases h with
  | nil hb' => exact .nil (happend hb')
  | param hb' hgroup hrest =>
    rw [← append_assoc]
    exact .param (happend hb') hgroup hrest
  | result hb' hgroup hrest =>
    rw [← append_assoc]
    exact .result (happend hb') hgroup hrest

theorem CallType.trimStart_iff : CallType inputs outputs (trimStart cs) ↔ CallType inputs outputs cs := by
  constructor
  · intro h
    obtain ⟨b, hb, hcs⟩ := exists_blank_append cs
    rw [hcs]
    exact h.blank hb
  · intro h
    have hparen : IsWord ['('] := by decide
    cases h with
    | nil hb =>
      rw [trimStart_eq_nil_iff.2 hb]
      exact .nil (by decide)
    | param hb hgroup hrest =>
      rw [inParens, trimStart_gap hb hparen]
      exact .param (b := []) (by decide) hgroup hrest
    | result hb hgroup hrest =>
      rw [inParens, trimStart_gap hb hparen]
      exact .result (b := []) (by decide) hgroup hrest

theorem readCall_eq_ok_iff :
    readCall cs = .ok i ↔
    ∃ inputs outputs, CallType inputs outputs (splitWord cs).2 ∧
      i = .call (String.ofList (splitWord cs).1) inputs outputs := by
  simp only [readCall, Fallible.bind_eq_ok_iff, readCallType_eq_ok_iff (Nat.lt_succ_self _),
    nil_append]
  constructor
  · rintro ⟨_, ⟨inputs, outputs, htype, rfl⟩, h⟩
    cases h
    exact ⟨inputs, outputs, htype, rfl⟩
  · rintro ⟨inputs, outputs, htype, rfl⟩
    exact ⟨_, ⟨inputs, outputs, htype, rfl⟩, rfl⟩

end CallTypes

end Source

/-! ### Instructions -/

theorem NumericOp.mnemonic_spec (op : NumericOp) :
    IsWord op.mnemonic.toList ∧ op.mnemonic.toList.head? ≠ some ';' ∧
      op.mnemonic ∉ ["i32.const", "i64.const", "f32.const", "f64.const", "local.get", "local.set",
        "drop", "unreachable", "return", "call"] ∧
      NumericOp.ofMnemonic? op.mnemonic = some op := by
  have hall : ∀ op ∈ NumericOp.all, IsWord op.mnemonic.toList ∧
      op.mnemonic.toList.head? ≠ some ';' ∧
      op.mnemonic ∉ ["i32.const", "i64.const", "f32.const", "f64.const", "local.get", "local.set",
        "drop", "unreachable", "return", "call"] ∧
      NumericOp.ofMnemonic? op.mnemonic = some op := by
    decide +kernel
  exact hall op op.mem_all

namespace Source

theorem stripHead?_mark (h : cs.head? ≠ some ';') : stripHead? [';', ';'] cs = none := by
  cases cs with
  | nil => rfl
  | cons c cs =>
    have hc : ';' ≠ c := by simpa [eq_comm] using h
    simp [stripHead?, hc]

def Names (table : Locals) (cs : List Char) (l : LocalId) : Prop :=
  ∃ name, table.lookup name = some l ∧
    (cs = '$' :: name.toList ∨ cs = name.toList ∧ cs.head? ≠ some '$')

theorem readLocal_eq_ok_iff {l : LocalId} : readLocal table cs = .ok l ↔ Names table cs l := by
  have hread : readLocal table cs = .ok l ↔
      table.lookup (String.ofList ((stripHead? ['$'] cs).getD cs)) = some l := by
    unfold readLocal
    dsimp only
    split <;> simp_all
  rw [hread]
  constructor
  · intro h
    refine ⟨_, h, ?_⟩
    cases hstrip : stripHead? ['$'] cs with
    | some name => exact .inl (by simpa using stripHead?_eq_some_iff.1 hstrip)
    | none =>
      refine .inr ⟨by simp, fun hhead => ?_⟩
      obtain ⟨rest, rfl⟩ := head?_eq_some_iff.1 hhead
      simp [stripHead?] at hstrip
  · rintro ⟨name, hname, rfl | ⟨rfl, hhead⟩⟩
    · simpa [stripHead?] using hname
    · have hnone : stripHead? ['$'] name.toList = none := by
        cases hcs : name.toList with
        | nil => rfl
        | cons c cs =>
          have hc : '$' ≠ c := by simpa [hcs, eq_comm] using hhead
          simp [stripHead?, hc]
      simpa [hnone] using hname

/-- The mnemonics without operands. -/
inductive Alone : String → Instruction → Prop
  | drop : Alone "drop" .drop
  | unreachable : Alone "unreachable" .unreachable
  | ret : Alone "return" .ret
  | numeric (op : NumericOp) : Alone op.mnemonic (.numeric op)

/-- The mnemonics with one operand, a number or a variable. -/
inductive Operand (table : Locals) (cs : List Char) : String → Instruction → Prop
  | i32Const {v : Int32} (h : int32? cs = some v) : Operand table cs "i32.const" (.i32Const v)
  | i64Const {v : Int64} (h : int64? cs = some v) : Operand table cs "i64.const" (.i64Const v)
  | f32Const {v : Binary .single} (h : Binary.ofChars? .single cs = some v) :
      Operand table cs "f32.const" (.f32Const v)
  | f64Const {v : Binary .double} (h : Binary.ofChars? .double cs = some v) :
      Operand table cs "f64.const" (.f64Const v)
  | localGet {l : LocalId} (h : Names table cs l) : Operand table cs "local.get" (.localGet l)
  | localSet {l : LocalId} (h : Names table cs l) : Operand table cs "local.set" (.localSet l)

def heedless : List String := ["drop", "unreachable", "return"]

/-- What is read from a mnemonic and the text behind it. -/
inductive Reads (table : Locals) : String → List Char → Instruction → Prop
  | alone {m : String} {i : Instruction} (h : Alone m i) : Reads table m [] i
  | heedless {m : String} {cs : List Char} {i : Instruction} (h : Alone m i) (hm : m ∈ heedless) :
      Reads table m cs i
  | operand {m : String} {cs : List Char} {i : Instruction} (h : Operand table cs m i) :
      Reads table m cs i
  | call {cs : List Char} {i : Instruction} (h : readCall cs = .ok i) : Reads table "call" cs i

theorem readNumber_eq_ok_iff {α : Type} {read? : List Char → Option α} {a : α} :
    readNumber read? cs = .ok a ↔ read? cs = some a := by
  unfold readNumber
  cases read? cs <;> simp

/-- **A line is accepted exactly if its mnemonic takes what follows it.** -/
theorem readInstruction_eq_ok_iff (hmark : stripHead? [';', ';'] line = none) :
    readInstruction table line = .ok i ↔
      Reads table (String.ofList (splitWord line).1) (splitWord line).2 i := by
  rw [readInstruction, hmark]
  dsimp only
  generalize String.ofList (splitWord line).1 = m
  generalize (splitWord line).2 = rest
  constructor
  · intro h
    split at h
    · obtain ⟨v, hv, ⟨⟩⟩ := Fallible.bind_eq_ok_iff.1 h
      exact .operand (.i32Const (readNumber_eq_ok_iff.1 hv))
    · obtain ⟨v, hv, ⟨⟩⟩ := Fallible.bind_eq_ok_iff.1 h
      exact .operand (.i64Const (readNumber_eq_ok_iff.1 hv))
    · obtain ⟨v, hv, ⟨⟩⟩ := Fallible.bind_eq_ok_iff.1 h
      exact .operand (.f32Const (readNumber_eq_ok_iff.1 hv))
    · obtain ⟨v, hv, ⟨⟩⟩ := Fallible.bind_eq_ok_iff.1 h
      exact .operand (.f64Const (readNumber_eq_ok_iff.1 hv))
    · obtain ⟨l, hl, ⟨⟩⟩ := Fallible.bind_eq_ok_iff.1 h
      exact .operand (.localGet (readLocal_eq_ok_iff.1 hl))
    · obtain ⟨l, hl, ⟨⟩⟩ := Fallible.bind_eq_ok_iff.1 h
      exact .operand (.localSet (readLocal_eq_ok_iff.1 hl))
    · cases h
      exact .heedless .drop (by decide)
    · cases h
      exact .heedless .unreachable (by decide)
    · cases h
      exact .heedless .ret (by decide)
    · exact .call h
    · split at h
      next op hop =>
        cases h
        obtain rfl : op.mnemonic = m := by simpa using find?_some hop
        exact .alone (.numeric op)
      next => cases h
  · -- The mnemonic of a numeric instruction is none of the others.
    have hnumeric : ∀ op : NumericOp, op.mnemonic ∉ ["i32.const", "i64.const", "f32.const", "f64.const",
        "local.get", "local.set", "drop", "unreachable", "return", "call"] := fun op =>
      op.mnemonic_spec.2.2.1
    intro h
    cases h with
    | alone h =>
      cases h with
      | numeric op =>
        split
        case h_11 => simp [op.mnemonic_spec.2.2.2]
        all_goals
          next h => exact absurd (by rw [h]; decide) (hnumeric op)
      | _ => rfl
    | heedless h hm =>
      cases h with
      | numeric op => exact absurd ((by decide : heedless ⊆ _) hm) (hnumeric op)
      | _ => rfl
    | operand h =>
      cases h with
      | i32Const h | i64Const h | f32Const h | f64Const h =>
        rw [readNumber_eq_ok_iff.2 h]
        rfl
      | localGet h | localSet h =>
        rw [readLocal_eq_ok_iff.2 h]
        rfl
    | call h => exact h

end Source

end Structurer
