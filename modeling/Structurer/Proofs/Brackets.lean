/-
**The brackets of rendered code.**

Rendered code is read line by line, by the first word of each line: `block`, `loop` and `if` open a
construct, `else` stands directly inside an `if`, and `end` closes the construct opened last.  Code
of any shape is read to its end this way, leaves open what was open before it and nothing else, and
each of its lines is indented by the constructs open around it.
-/

import Structurer.Code.Render

namespace Structurer

open List

/-! ### The words that lines begin with -/

namespace Line

def indentation (line : String) : Nat := (line.toList.takeWhile (· == ' ')).length

def keyword (line : String) : String :=
  String.ofList ((line.toList.dropWhile (· == ' ')).takeWhile (· != ' '))

/-- A text begins with a word: it is the word alone, or a space follows the word. -/
structure Begins (word text : String) : Prop where
  nonempty : word.toList ≠ []
  noSpace : ' ' ∉ word.toList
  starts : word.toList <+: text.toList
  stops : (text.toList.drop word.toList.length).head?.all (· == ' ') = true

instance (word text : String) : Decidable (Begins word text) :=
  decidable_of_iff (word.toList ≠ [] ∧ ' ' ∉ word.toList ∧ word.toList <+: text.toList ∧
      (text.toList.drop word.toList.length).head?.all (· == ' ') = true)
    ⟨fun ⟨h₁, h₂, h₃, h₄⟩ => ⟨h₁, h₂, h₃, h₄⟩, fun h => ⟨h.nonempty, h.noSpace, h.starts, h.stops⟩⟩

variable {word text rest : String}

theorem Begins.exists_rest (h : Begins word text) :
    ∃ rest, text.toList = word.toList ++ rest ∧ rest.head?.all (· == ' ') = true := by
  obtain ⟨rest, hrest⟩ := h.starts
  refine ⟨rest, hrest.symm, ?_⟩
  simpa [← hrest] using h.stops

theorem Begins.append (h : Begins word text) (hlong : word.toList.length < text.toList.length) :
    Begins word (text ++ rest) := by
  refine ⟨h.nonempty, h.noSpace, ?_, ?_⟩
  · rw [String.toList_append]
    exact h.starts.trans (prefix_append ..)
  · rw [String.toList_append, drop_append_of_le_length (Nat.le_of_lt hlong), head?_append]
    have hsome : (text.toList.drop word.toList.length).head?.isSome = true := by
      simpa using hlong
    obtain ⟨c, hc⟩ := Option.isSome_iff_exists.1 hsome
    simpa [hc] using h.stops

theorem toList_indented (d : Nat) :
    (indented d text).toList = List.replicate (2 * d) ' ' ++ text.toList := by
  have hblanks : (String.join (List.replicate d "  ")).toList = List.replicate (2 * d) ' ' := by
    rw [String.toList_join]
    induction d with
    | zero => rfl
    | succ d ih =>
      rw [replicate_succ]
      simp [ih, Nat.mul_succ, replicate_succ]
  rw [indented, String.toList_append, hblanks]

theorem Begins.indentation (h : Begins word text) (d : Nat) :
    Line.indentation (indented d text) = 2 * d := by
  obtain ⟨rest, hrest, -⟩ := h.exists_rest
  rw [Line.indentation, toList_indented, hrest]
  rw [takeWhile_append_of_pos (by simp)]
  cases hw : word.toList with
  | nil => exact absurd hw h.nonempty
  | cons c cs =>
    have hc : c ≠ ' ' := fun e => h.noSpace (by simp [hw, e])
    simp [hc]

theorem Begins.keyword (h : Begins word text) (d : Nat) :
    Line.keyword (indented d text) = word := by
  obtain ⟨rest, hrest, hspace⟩ := h.exists_rest
  have hword : ∀ c ∈ word.toList, (c != ' ') = true := by
    intro c hc
    simpa using fun e : c = ' ' => h.noSpace (e ▸ hc)
  have hstop : rest.takeWhile (· != ' ') = [] := by
    cases rest with
    | nil => rfl
    | cons c cs =>
      have hc : c = ' ' := by simpa using hspace
      simp [hc]
  have hdrop : (indented d text).toList.dropWhile (· == ' ') = word.toList ++ rest := by
    rw [toList_indented, hrest, dropWhile_append_of_pos (by simp)]
    cases hw : word.toList with
    | nil => exact absurd hw h.nonempty
    | cons c cs =>
      have hc : c ≠ ' ' := fun e => h.noSpace (by simp [hw, e])
      simp [hc]
  rw [Line.keyword, hdrop, takeWhile_append_of_pos hword, hstop, append_nil,
    String.ofList_toList]

end Line

open Line (Begins)

/-! ### Reading lines -/

/-- What a line can open. -/
inductive ConstructKind where
  | block
  | loop
  | cond
  /-- An `if` of which the `else` has been read. -/
  | alternative
  deriving DecidableEq, Repr

/-- A construct that is open, with the number of the line that opened it. -/
structure Construct where
  kind : ConstructKind
  line : Nat
  deriving DecidableEq, Repr

namespace Construct

def alternate : List Construct → Option (List Construct)
  | ⟨.cond, k⟩ :: stack => some (⟨.alternative, k⟩ :: stack)
  | _ => none

def close : List Construct → Option (List Construct)
  | _ :: stack => some stack
  | [] => none

def step (k : Nat) (line : String) (stack : List Construct) : Option (List Construct) :=
  if Line.keyword line = "block" then some (⟨.block, k⟩ :: stack)
  else if Line.keyword line = "loop" then some (⟨.loop, k⟩ :: stack)
  else if Line.keyword line = "if" then some (⟨.cond, k⟩ :: stack)
  else if Line.keyword line = "else" then alternate stack
  else if Line.keyword line = "end" then close stack
  else some stack

def read : Nat → List String → List Construct → Option (List Construct)
  | _, [], stack => some stack
  | k, line :: lines, stack => (step k line stack).bind (read (k + 1) lines)

def around (line : String) (stack : List Construct) : Nat :=
  if Line.keyword line = "else" ∨ Line.keyword line = "end" then stack.length - 1
  else stack.length

/-- Lines that can be read one after the other, each indented by two spaces for each construct
around it. -/
inductive Fits : Nat → List String → List Construct → List Construct → Prop
  | nil (k : Nat) (stack : List Construct) : Fits k [] stack stack
  | cons {k : Nat} {line : String} {lines : List String} {stack next last : List Construct}
      (hstep : step k line stack = some next)
      (hindent : Line.indentation line = 2 * around line stack)
      (hrest : Fits (k + 1) lines next last) : Fits k (line :: lines) stack last

namespace Fits

variable {k n : Nat} {lines front rest : List String} {stack middle last : List Construct}
  {text : String}

theorem read (h : Fits k lines stack last) : Construct.read k lines stack = some last := by
  induction h with
  | nil => rfl
  | cons hstep _ _ ih => rw [Construct.read, hstep, Option.bind_some, ih]

theorem append (h : Fits k front stack middle)
    (h' : Fits (k + front.length) rest middle last) : Fits k (front ++ rest) stack last := by
  induction h with
  | nil => simpa using h'
  | cons hstep hindent _ ih =>
    refine .cons hstep hindent (ih ?_)
    simpa [Nat.add_assoc, Nat.add_comm 1] using h'

theorem aligned (h : Fits k lines stack last) {j : Nat} {line : String}
    (hj : lines[j]? = some line) : ∃ next, Construct.read k (lines.take j) stack = some next ∧
      Line.indentation line = 2 * around line next := by
  induction h generalizing j with
  | nil => simp at hj
  | @cons k first lines stack next last hstep hindent _ ih =>
    cases j with
    | zero =>
      obtain rfl : first = line := by simpa using hj
      exact ⟨stack, rfl, hindent⟩
    | succ j =>
      obtain ⟨next', hread, hindent'⟩ := ih (by simpa using hj)
      exact ⟨next', by simp [Construct.read, hstep, hread], hindent'⟩

/-! ### One line -/

theorem plain {word : String} (hbegins : Begins word text)
    (hword : word ∉ ["block", "loop", "if", "else", "end"]) :
    Fits k [indented stack.length text] stack stack := by
  simp only [mem_cons, not_mem_nil, or_false, not_or] at hword
  obtain ⟨hblock, hloop, hif, helse, hend⟩ := hword
  have hkey := hbegins.keyword stack.length
  refine .cons ?_ ?_ (.nil ..)
  · simp [step, hkey, hblock, hloop, hif, helse, hend]
  · simp [around, hkey, helse, hend, hbegins.indentation]

theorem phrase {rest : String} (word : String) (h : Begins word text ∧
    word.toList.length < text.toList.length ∧ word ∉ ["block", "loop", "if", "else", "end"]) :
    Fits k [indented stack.length (text ++ rest)] stack stack :=
  .plain (h.1.append h.2.1) h.2.2

theorem block (hbegins : Begins "block" text) :
    Fits k [indented stack.length text] stack (⟨.block, k⟩ :: stack) := by
  have hkey := hbegins.keyword stack.length
  exact .cons (by simp [step, hkey]) (by simp [around, hkey, hbegins.indentation]) (.nil ..)

theorem loop (hbegins : Begins "loop" text) :
    Fits k [indented stack.length text] stack (⟨.loop, k⟩ :: stack) := by
  have hkey := hbegins.keyword stack.length
  exact .cons (by simp [step, hkey]) (by simp [around, hkey, hbegins.indentation]) (.nil ..)

theorem cond (hbegins : Begins "if" text) :
    Fits k [indented stack.length text] stack (⟨.cond, k⟩ :: stack) := by
  have hkey := hbegins.keyword stack.length
  exact .cons (by simp [step, hkey]) (by simp [around, hkey, hbegins.indentation]) (.nil ..)

theorem alternative : Fits k [indented stack.length "else"] (⟨.cond, n⟩ :: stack)
    (⟨.alternative, n⟩ :: stack) := by
  have hbegins : Begins "else" "else" := by decide
  have hkey := hbegins.keyword stack.length
  refine .cons ?_ ?_ (.nil ..)
  · simp [step, hkey, alternate]
  · simp [around, hkey, hbegins.indentation]

theorem close {c : Construct} : Fits k [indented stack.length "end"] (c :: stack) stack := by
  have hbegins : Begins "end" "end" := by decide
  have hkey := hbegins.keyword stack.length
  refine .cons ?_ ?_ (.nil ..)
  · simp [step, hkey, Construct.close]
  · simp [around, hkey, hbegins.indentation]

end Fits

/-! ### Blocks opened in a row -/

def ladder (k : Nat) : Nat → List Construct
  | 0 => []
  | n + 1 => ⟨.block, k + n⟩ :: ladder k n

@[simp] theorem length_ladder (k n : Nat) : (ladder k n).length = n := by
  induction n with
  | zero => rfl
  | succ n ih => simp [ladder, ih]

theorem ladder_append (k m n : Nat) : ladder (k + m) n ++ ladder k m = ladder k (m + n) := by
  induction n with
  | zero => rfl
  | succ n ih => rw [ladder, cons_append, ih, Nat.add_assoc]; rfl

theorem getElem?_ladder {k n i : Nat} (stack : List Construct) (hi : i < n) :
    (ladder k n ++ stack)[i]? = some ⟨.block, k + (n - 1 - i)⟩ := by
  induction n generalizing i with
  | zero => cases hi
  | succ n ih =>
    cases i with
    | zero => simp [ladder]
    | succ i =>
      rw [ladder, cons_append, getElem?_cons_succ, ih (Nat.lt_of_succ_lt_succ hi)]
      simp [Nat.sub_sub, Nat.add_comm 1]

namespace Fits

variable {k : Nat} {stack : List Construct}

theorem blocks {text : Nat → String} (htext : ∀ j, Begins "block" (text j)) (n : Nat) :
    Fits k ((List.range n).map fun j => indented (stack.length + j) (text j)) stack
      (ladder k n ++ stack) := by
  induction n with
  | zero => exact .nil ..
  | succ n ih =>
    rw [range_succ, map_append]
    refine ih.append ?_
    have hlast : Fits (k + n) [indented (ladder k n ++ stack).length (text n)]
        (ladder k n ++ stack) (ladder k (n + 1) ++ stack) := .block (htext n)
    simpa [Nat.add_comm] using hlast

theorem switchHead (n : Nat) :
    Fits k (switchHead stack.length n) stack (ladder k (n + 2) ++ stack) := by
  have hwhole : Fits k [indented stack.length "block ;; switch"] stack (ladder k 1 ++ stack) :=
    .block (by decide)
  have hrange : Fits (k + 1) [indented (ladder k 1 ++ stack).length "block ;; out of range"]
      (ladder k 1 ++ stack) (ladder k 2 ++ stack) := .block (by decide)
  have htext : ∀ j, Begins "block" ("block ;; case " ++ toString (n - 1 - j)) :=
    fun _ => .append (by decide) (by decide)
  have hcases : Fits (k + 2) _ (ladder k 2 ++ stack) _ := blocks htext n
  rw [← append_assoc, ladder_append, Nat.add_comm 2 n] at hcases
  have hlength : (ladder k 2 ++ stack).length = stack.length + 2 := by simp [Nat.add_comm]
  rw [hlength] at hcases
  exact hwhole.append (hrange.append hcases)

end Fits

end Construct

/-! ### The lines of code -/

section

variable (locals : Locals) (depth : Nat) (params results : StackType)

theorem Instruction.render_cond_nil (thenBody : Body) :
    Instruction.render locals depth (.cond params results thenBody []) =
      indented depth ("if" ++ blockType params results) ::
        (Body.renderAt locals (depth + 1) thenBody ++ [indented depth "end"]) := by
  simp [Instruction.render]

theorem Instruction.render_cond_cons (thenBody : Body) (i : Instruction) (elseBody : Body) :
    Instruction.render locals depth (.cond params results thenBody (i :: elseBody)) =
      indented depth ("if" ++ blockType params results) ::
        (Body.renderAt locals (depth + 1) thenBody ++ (indented depth "else" ::
          (Body.renderAt locals (depth + 1) (i :: elseBody) ++ [indented depth "end"]))) := by
  simp [Instruction.render]

end

theorem begins_blockType {word : String} (hword : Begins word word) (params results : StackType) :
    Begins word (word ++ blockType params results) := by
  refine ⟨hword.nonempty, hword.noSpace, by simp, ?_⟩
  cases params with
  | cons t ts => simp [blockType, typeGroup]
  | nil =>
    cases results with
    | cons t ts => simp [blockType, typeGroup]
    | nil => simp [blockType, typeGroup]

theorem NumericOp.begins_mnemonic (op : NumericOp) :
    Begins op.mnemonic op.mnemonic ∧ op.mnemonic ∉ ["block", "loop", "if", "else", "end"] := by
  have hall : ∀ op ∈ NumericOp.all, Begins op.mnemonic op.mnemonic ∧
      op.mnemonic ∉ ["block", "loop", "if", "else", "end"] := by
    decide +kernel
  exact hall op op.mem_all

namespace Construct.Fits

theorem leave {k : Nat} {stack : List Construct} (c : Body) (n : Nat) :
    Fits k (if Body.fallsThrough c then [indented stack.length ("br " ++ toString n)] else [])
      stack stack := by
  split
  · exact .phrase "br" (by decide)
  · exact .nil ..

mutual

theorem render (locals : Locals) (k : Nat) (stack : List Construct) (i : Instruction) :
    Fits k (Instruction.render locals stack.length i) stack stack := by
  match i with
  | .i32Const v => exact .phrase "i32.const" (by decide)
  | .i64Const v => exact .phrase "i64.const" (by decide)
  | .f32Const v => exact .phrase "f32.const" (by decide)
  | .f64Const v => exact .phrase "f64.const" (by decide)
  | .localGet l => exact .phrase "local.get" (by decide)
  | .localSet l => exact .phrase "local.set" (by decide)
  | .numeric op => exact .plain op.begins_mnemonic.1 op.begins_mnemonic.2
  | .drop => exact .plain (by decide : Begins "drop" _) (by decide)
  | .call n i o =>
    have hname : Begins "call" ("call " ++ n) := .append (by decide) (by decide)
    exact .plain (hname.append (by simp)) (by decide)
  | .comment t => exact .phrase ";;" (by decide)
  | .cond p r t e =>
    have hopen : Fits k _ stack (⟨.cond, k⟩ :: stack) := .cond (begins_blockType (by decide) p r)
    have hthen := renderAt locals (k + 1) (⟨.cond, k⟩ :: stack) t
    cases e with
    | nil =>
      rw [Instruction.render_cond_nil]
      exact hopen.append (hthen.append .close)
    | cons i e =>
      have helse : ∀ k', Fits k' _ (⟨.alternative, k⟩ :: stack) _ := fun k' =>
        renderAt locals k' (⟨.alternative, k⟩ :: stack) (i :: e)
      rw [Instruction.render_cond_cons]
      exact hopen.append (hthen.append (.append .alternative ((helse _).append .close)))
  | .loop l p r b =>
    have hlabel : Begins "loop" ("loop " ++ l.display) := .append (by decide) (by decide)
    have hopen : Fits k [indented stack.length ("loop " ++ l.display ++ blockType p r)] stack
        (⟨.loop, k⟩ :: stack) := .loop (hlabel.append (by simp))
    exact (hopen.append (renderAt locals (k + 1) (⟨.loop, k⟩ :: stack) b)).append .close
  | .br l => exact .phrase "br" (by decide)
  | .brIf l => exact .phrase "br_if" (by decide)
  | .switch s cs =>
    have hdepth : stack.length + 2 + cs.length = (ladder k (cs.length + 2) ++ stack).length := by
      simp
      omega
    have hget : Begins "local.get" ("local.get $" ++ locals.name s) :=
      .append (by decide) (by decide)
    have htable : Begins "br_table" (jumpTable cs.length) := .append (by decide) (by decide)
    have hjump : ∀ k', Fits k' _ (ladder k (cs.length + 2) ++ stack) _ := fun _ =>
      .append (.plain hget (by decide)) (.plain htable (by decide))
    have htrapWord : Begins "unreachable" "unreachable" := by decide
    have htrap : ∀ k', Fits k' _ (ladder k 2 ++ stack) stack := fun _ =>
      .append .close (.append (.plain htrapWord (by decide)) .close)
    rw [Instruction.render, hdepth]
    exact (((switchHead _).append (hjump _)).append (renderCases locals _ k stack cs)).append
      (htrap _)
  | .unreachable => exact .plain (by decide : Begins "unreachable" _) (by decide)
  | .ret => exact .plain (by decide : Begins "return" _) (by decide)

theorem renderAt (locals : Locals) (k : Nat) (stack : List Construct) (body : List Instruction) :
    Fits k (Body.renderAt locals stack.length body) stack stack := by
  match body with
  | [] => exact .nil ..
  | i :: is => exact (render locals k stack i).append (renderAt locals _ stack is)

theorem renderCases (locals : Locals) (k start : Nat) (stack : List Construct)
    (cases : List (List Instruction)) :
    Fits k (Body.renderCases locals (stack.length + 1) cases)
      (ladder start (cases.length + 2) ++ stack) (ladder start 2 ++ stack) := by
  match cases with
  | [] => exact .nil ..
  | c :: cs =>
    have hdepth : stack.length + 1 + 1 + cs.length =
        (ladder start (cs.length + 2) ++ stack).length := by
      simp
      omega
    simp only [Body.renderCases, hdepth]
    exact ((Fits.append .close (renderAt locals _ _ c)).append (.leave c _)).append
      (renderCases locals _ start stack cs)

end

end Construct.Fits

end Structurer
