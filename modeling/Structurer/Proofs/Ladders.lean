/-
**The jumps of rendered switches.**

A switch is rendered as a ladder of nested blocks around a jump table.  Jumps out of a block are
numbered outwards over the constructs open where the jump stands, and the numbers are right: those
of the table lead to the code of the cases and to the trap behind them, and a case that falls
through leaves the block of the whole switch.
-/

import Mathlib.Data.List.Forall2
import Structurer.Proofs.Brackets

namespace Structurer

open List

variable {lines : List String} {locals : Locals}

/-! ### Jumps -/

namespace Construct

def openAt (lines : List String) (k : Nat) : Option (List Construct) := read 0 (lines.take k) []

def Names (lines : List String) (k depth : Nat) (c : Construct) : Prop :=
  ∃ stack, openAt lines k = some stack ∧ stack[depth]? = some c

def Closes (lines : List String) (k : Nat) (c : Construct) : Prop :=
  (lines[k]?.map Line.keyword = some "end") ∧ ∃ stack, openAt lines k = some (c :: stack)

/-- A jump at line `k` over `depth` constructs leaves a block whose `end` is line `stop`. -/
def Leads (lines : List String) (k depth stop : Nat) : Prop :=
  ∃ start, Names lines k depth ⟨.block, start⟩ ∧ Closes lines stop ⟨.block, start⟩

end Construct

open Construct

/-! ### Switches -/

mutual

def Instruction.switches : Instruction → List (LocalId × List Body)
  | .cond _ _ t e => Body.switches t ++ Body.switches e
  | .loop _ _ _ b => Body.switches b
  | .switch s cs => (s, cs) :: Body.casesSwitches cs
  | _ => []

def Body.switches : List Instruction → List (LocalId × List Body)
  | [] => []
  | i :: is => Instruction.switches i ++ Body.switches is

def Body.casesSwitches : List (List Instruction) → List (LocalId × List Body)
  | [] => []
  | c :: cs => Body.switches c ++ Body.casesSwitches cs

end

/-- The code of a case stands directly behind line `stop`, and if it falls through, a jump behind
it names the block that line `start` opens. -/
def CaseBehind (locals : Locals) (lines : List String) (start stop : Nat) (c : Body) : Prop :=
  ∃ depth, Body.renderAt locals depth c <+: lines.drop (stop + 1) ∧
    (Body.fallsThrough c = true → ∃ target,
      lines[stop + 1 + (Body.renderAt locals depth c).length]? =
        some (indented depth ("br " ++ toString target)) ∧
      Names lines (stop + 1 + (Body.renderAt locals depth c).length) target ⟨.block, start⟩)

/-- A switch is rendered from line `start` on, and all its jumps go where they should.  The jump
table stands behind the lines that open the blocks and the line that loads the selector. -/
structure Ladder (locals : Locals) (lines : List String) (start depth : Nat)
    (targets : List Nat) (s : LocalId) (cases : List Body) : Prop where
  shown : Instruction.render locals depth (.switch s cases) <+: lines.drop start
  /-- The block opened first is the block of the whole switch. -/
  whole : Closes lines (start + (Instruction.render locals depth (.switch s cases)).length - 1)
    ⟨.block, start⟩
  table : lines[start + cases.length + 3]? = some (indented (depth + 2 + cases.length)
    ("br_table " ++ " ".intercalate (targets.map toString)))
  length_targets : targets.length = cases.length + 1
  case : ∀ (i : Nat) (c : Body), cases[i]? = some c → ∃ target stop, targets[i]? = some target ∧
    Leads lines (start + cases.length + 3) target stop ∧ CaseBehind locals lines start stop c
  default : ∃ target stop, targets[cases.length]? = some target ∧
    Leads lines (start + cases.length + 3) target stop ∧
    lines[stop + 1]? = some (indented (depth + 1) "unreachable")

/-! ### Reading up to a line -/

/-- The reader stands before line `k`, with some constructs open and the lines `rest` ahead. -/
structure Construct.At (lines : List String) (k : Nat) (rest : List String)
    (stack : List Construct) : Prop where
  le : k ≤ lines.length
  ahead : lines.drop k = rest
  fits : Fits 0 (lines.take k) [] stack

namespace Construct.At

variable {front rest : List String} {k depth : Nat} {stack next : List Construct} {line : String}
  {c : Construct}

theorem start (lines : List String) : At lines 0 lines [] := ⟨Nat.zero_le _, rfl, .nil ..⟩

theorem openAt (h : At lines k rest stack) : Construct.openAt lines k = some stack := h.fits.read

theorem getElem? (h : At lines k (line :: rest) stack) : lines[k]? = some line := by
  rw [← head?_drop, h.ahead, head?_cons]

theorem advance (h : At lines k (front ++ rest) stack) (hfits : Fits k front stack next) :
    At lines (k + front.length) rest next := by
  have htake : lines.take (k + front.length) = lines.take k ++ front := by
    rw [take_add, h.ahead, take_left]
  have hlength : (lines.take k).length = k := length_take_of_le h.le
  have hlong : lines.length = k + (front ++ rest).length := by
    rw [← h.ahead, length_drop]
    have := h.le
    omega
  refine ⟨?_, ?_, ?_⟩
  · rw [hlong, length_append]
    omega
  · rw [← drop_drop, h.ahead, drop_left]
  · rw [htake]
    exact h.fits.append (by simpa [hlength] using hfits)

theorem next_line (h : At lines k (line :: rest) stack) (hfits : Fits k [line] stack next) :
    At lines (k + 1) rest next := by
  have hcons : At lines k ([line] ++ rest) stack := h
  exact hcons.advance hfits

theorem shows (h : At lines k (front ++ rest) stack) : front <+: lines.drop k :=
  ⟨rest, h.ahead.symm⟩

theorem names (h : At lines k rest stack) (hc : stack[depth]? = some c) :
    Names lines k depth c := ⟨stack, h.openAt, hc⟩

theorem closes {d : Nat} (h : At lines k (indented d "end" :: rest) (c :: stack)) :
    Closes lines k c := by
  refine ⟨?_, stack, h.openAt⟩
  rw [h.getElem?, Option.map_some, (by decide : Line.Begins "end" "end").keyword]

section

variable {start : Nat} {c : Body} {cases : List Body}

theorem caseCode (h : At lines k (Body.renderCases locals (stack.length + 1) (c :: cases) ++ rest)
      (ladder start (cases.length + 3) ++ stack)) :
    At lines (k + 1)
      (Body.renderAt locals (ladder start (cases.length + 2) ++ stack).length c ++
        ((if Body.fallsThrough c then [indented (ladder start (cases.length + 2) ++ stack).length
            ("br " ++ toString (cases.length + 1))] else []) ++
          (Body.renderCases locals (stack.length + 1) cases ++ rest)))
      (ladder start (cases.length + 2) ++ stack) ∧
    Closes lines k ⟨.block, start + (cases.length + 2)⟩ := by
  have hinner : stack.length + 1 + 1 + cases.length =
      (ladder start (cases.length + 2) ++ stack).length := by
    simp
    omega
  simp only [Body.renderCases, hinner, cons_append, append_assoc] at h
  exact ⟨h.next_line .close, h.closes⟩

theorem caseRest (h : At lines k (Body.renderCases locals (stack.length + 1) (c :: cases) ++ rest)
      (ladder start (cases.length + 3) ++ stack)) :
    ∃ k', k + 1 + (Body.renderAt locals (ladder start (cases.length + 2) ++ stack).length c).length
        ≤ k' ∧
      k' + (Body.renderCases locals (stack.length + 1) cases).length =
        k + (Body.renderCases locals (stack.length + 1) (c :: cases)).length ∧
      At lines k' (Body.renderCases locals (stack.length + 1) cases ++ rest)
        (ladder start (cases.length + 2) ++ stack) := by
  refine ⟨_, Nat.le_add_right .., ?_, (h.caseCode.1.advance (.renderAt ..)).advance (.leave ..)⟩
  have hinner : (ladder start (cases.length + 2) ++ stack).length =
      stack.length + 1 + 1 + cases.length := by
    simp
    omega
  simp only [Body.renderCases, hinner, length_append, length_cons]
  omega

theorem caseBehind (h : At lines k (Body.renderCases locals (stack.length + 1) cases ++ rest)
      (ladder start (cases.length + 2) ++ stack)) {i : Nat} (hc : cases[i]? = some c) :
    ∃ stop, Closes lines stop ⟨.block, start + (cases.length + 1 - i)⟩ ∧
      CaseBehind locals lines start stop c := by
  induction cases generalizing k i with
  | nil => simp at hc
  | cons first cases ih =>
    cases i with
    | zero =>
      obtain rfl : first = c := by simpa using hc
      obtain ⟨hcode, hcloses⟩ := h.caseCode
      refine ⟨k, hcloses, _, hcode.shows, fun hfall => ?_⟩
      have hleave := hcode.advance (.renderAt locals _ _ first)
      rw [if_pos hfall] at hleave
      refine ⟨_, hleave.getElem?, hleave.names ?_⟩
      rw [getElem?_ladder _ (by omega)]
      simp
    | succ i =>
      obtain ⟨k', -, -, hrest⟩ := h.caseRest
      obtain ⟨stop, hstop, hbehind⟩ := ih hrest (by simpa using hc)
      refine ⟨stop, ?_, hbehind⟩
      simpa [Nat.add_sub_add_right] using hstop

end

section

variable {s : LocalId} {cases : List Body}

section

variable (h : At lines k (Instruction.render locals stack.length (.switch s cases) ++ rest) stack)

include h

theorem switchTable :
    At lines (k + cases.length + 3) (indented (stack.length + 2 + cases.length)
        (jumpTable cases.length) :: (Body.renderCases locals (stack.length + 1) cases ++
          (indented (stack.length + 1) "end" :: indented (stack.length + 1) "unreachable" ::
            indented stack.length "end" :: rest)))
      (Construct.ladder k (cases.length + 2) ++ stack) := by
  have hinner : stack.length + 2 + cases.length =
      (Construct.ladder k (cases.length + 2) ++ stack).length := by
    simp
    omega
  have hget : Line.Begins "local.get" ("local.get $" ++ locals.name s) :=
    .append (by decide) (by decide)
  have hline : k + (switchHead stack.length cases.length).length + 1 = k + cases.length + 3 := by
    simp [switchHead]
    omega
  simp only [Instruction.render, hinner, append_assoc, cons_append, nil_append] at h
  rw [hinner, ← hline]
  exact (h.advance (.switchHead cases.length)).next_line (.plain hget (by decide))

theorem switchCases :
    At lines (k + cases.length + 4) (Body.renderCases locals (stack.length + 1) cases ++
        (indented (stack.length + 1) "end" :: indented (stack.length + 1) "unreachable" ::
          indented stack.length "end" :: rest))
      (Construct.ladder k (cases.length + 2) ++ stack) := by
  have htable : Line.Begins "br_table" (jumpTable cases.length) := .append (by decide) (by decide)
  have hinner : stack.length + 2 + cases.length =
      (Construct.ladder k (cases.length + 2) ++ stack).length := by
    simp
    omega
  have hjump := h.switchTable
  rw [hinner] at hjump
  exact hjump.next_line (.plain htable (by decide))

theorem ladder : Ladder locals lines k stack.length (List.range (cases.length + 1)) s cases := by
  have htrapWord : Line.Begins "unreachable" "unreachable" := by decide
  have hlast : At lines _ (indented (Construct.ladder k 1 ++ stack).length "end" :: _)
      (⟨.block, k + 1⟩ :: (Construct.ladder k 1 ++ stack)) :=
    h.switchCases.advance (.renderCases locals _ k stack cases)
  have htrap : At lines _ (indented (Construct.ladder k 1 ++ stack).length "unreachable" :: _) _ :=
    hlast.next_line .close
  have hend : At lines _ _ (⟨.block, k⟩ :: stack) :=
    htrap.next_line (.plain htrapWord (by decide))
  refine ⟨h.shows, ?_, h.switchTable.getElem?, by simp, ?_, ?_⟩
  · have hline : k + (Instruction.render locals stack.length (.switch s cases)).length - 1 =
        k + cases.length + 4 + (Body.renderCases locals (stack.length + 1) cases).length + 2 := by
      simp [Instruction.render, switchHead]
      omega
    rw [hline]
    exact hend.closes
  · intro i c hc
    have hi : i < cases.length := (List.getElem?_eq_some_iff.1 hc).1
    obtain ⟨stop, hstop, hbehind⟩ := h.switchCases.caseBehind hc
    refine ⟨i, stop, getElem?_range (by omega), ⟨_, h.switchTable.names ?_, hstop⟩, hbehind⟩
    rw [getElem?_ladder _ (by omega)]
    congr 3
  · refine ⟨cases.length, _, getElem?_range (by omega),
      ⟨_, h.switchTable.names ?_, hlast.closes⟩, htrap.getElem?⟩
    rw [getElem?_ladder _ (by omega)]
    simp

end

end

end Construct.At

/-! ### All switches of a body -/

def Placed (locals : Locals) (lines : List String) (first bound : Nat)
    (switches : List (LocalId × List Body)) : Prop :=
  ∃ places : List Nat, places.Pairwise (· < ·) ∧ (∀ k ∈ places, first ≤ k ∧ k < bound) ∧
    List.Forall₂ (fun k switch => ∃ depth targets,
      Ladder locals lines k depth targets switch.1 switch.2) places switches

namespace Placed

variable {first middle bound : Nat} {front rest : List (LocalId × List Body)}

theorem nil : Placed locals lines first bound [] := ⟨[], .nil, by simp, .nil⟩

theorem mono {first' bound' : Nat} (h : Placed locals lines first bound front)
    (hfirst : first' ≤ first) (hbound : bound ≤ bound') :
    Placed locals lines first' bound' front := by
  obtain ⟨places, hsorted, hbetween, hladders⟩ := h
  refine ⟨places, hsorted, fun k hk => ?_, hladders⟩
  obtain ⟨hlow, hhigh⟩ := hbetween k hk
  omega

theorem append (h : Placed locals lines first middle front)
    (h' : Placed locals lines middle bound rest) (hfirst : first ≤ middle)
    (hbound : middle ≤ bound) : Placed locals lines first bound (front ++ rest) := by
  obtain ⟨places, hsorted, hbetween, hladders⟩ := h
  obtain ⟨places', hsorted', hbetween', hladders'⟩ := h'
  refine ⟨places ++ places', ?_, ?_, rel_append hladders hladders'⟩
  · refine pairwise_append.2 ⟨hsorted, hsorted', fun k hk k' hk' => ?_⟩
    exact Nat.lt_of_lt_of_le (hbetween k hk).2 (hbetween' k' hk').1
  · intro k hk
    rcases mem_append.1 hk with hk | hk
    · have := hbetween k hk
      omega
    · have := hbetween' k hk
      omega

theorem cons {s : LocalId} {cases : List Body} {depth : Nat} {targets : List Nat}
    (h : Ladder locals lines first depth targets s cases)
    (h' : Placed locals lines (first + 1) bound rest) (hbound : first < bound) :
    Placed locals lines first bound ((s, cases) :: rest) := by
  obtain ⟨places, hsorted, hbetween, hladders⟩ := h'
  refine ⟨first :: places, ?_, ?_, .cons ⟨_, _, h⟩ hladders⟩
  · exact pairwise_cons.2 ⟨fun k hk => (hbetween k hk).1, hsorted⟩
  · intro k hk
    rcases mem_cons.1 hk with rfl | hk
    · exact ⟨Nat.le_refl _, hbound⟩
    · have := hbetween k hk
      omega

mutual

theorem render {k : Nat} (stack : List Construct) {below : List String} (i : Instruction)
    (h : At lines k (Instruction.render locals stack.length i ++ below) stack) :
    Placed locals lines k (k + (Instruction.render locals stack.length i).length) i.switches := by
  cases i with
  | cond p r t e =>
    have hopen : Fits k [indented stack.length ("if" ++ blockType p r)] stack
        (⟨.cond, k⟩ :: stack) := .cond (begins_blockType (by decide) p r)
    rw [Instruction.switches]
    cases e with
    | nil =>
      rw [Instruction.render_cond_nil, cons_append, append_assoc] at h
      rw [Instruction.render_cond_nil, Body.switches, append_nil]
      have hthen := renderAt (⟨.cond, k⟩ :: stack) t (h.next_line hopen)
      refine hthen.mono (Nat.le_succ k) ?_
      simp
      omega
    | cons i e =>
      rw [Instruction.render_cond_cons] at h ⊢
      simp only [cons_append, append_assoc] at h
      have hthen := h.next_line hopen
      have helse := (hthen.advance (.renderAt locals _ (⟨.cond, k⟩ :: stack) t)).next_line
        .alternative
      have ht := renderAt (⟨.cond, k⟩ :: stack) t hthen
      have he := renderAt (⟨.alternative, k⟩ :: stack) (i :: e) helse
      rw [length_cons] at ht he
      have hplaced := ht.append (he.mono (Nat.le_succ _) (Nat.le_refl _)) (by omega) (by omega)
      refine hplaced.mono (Nat.le_succ k) ?_
      simp
      omega
  | loop l p r b =>
    have hlabel : Line.Begins "loop" ("loop " ++ l.display) := .append (by decide) (by decide)
    simp only [Instruction.render, append_assoc, cons_append] at h
    have hbody := renderAt (⟨.loop, k⟩ :: stack) b (h.next_line (.loop (hlabel.append (by simp))))
    refine hbody.mono (Nat.le_succ k) ?_
    simp [Instruction.render]
    omega
  | switch s cs =>
    have hcases := renderCases cs h.switchCases
    rw [Instruction.switches]
    refine .cons h.ladder (hcases.mono ?_ ?_) ?_
    · omega
    · simp [Instruction.render, switchHead]
      omega
    · simp [Instruction.render, switchHead]
  | _ => exact .nil

theorem renderAt {k : Nat} (stack : List Construct) {below : List String} (body : List Instruction)
    (h : At lines k (Body.renderAt locals stack.length body ++ below) stack) :
    Placed locals lines k (k + (Body.renderAt locals stack.length body).length)
      (Body.switches body) := by
  match body with
  | [] => exact .nil
  | i :: is =>
    rw [Body.renderAt, append_assoc] at h
    rw [Body.renderAt, length_append, ← Nat.add_assoc]
    have hrest := h.advance (.render locals k stack i)
    exact (render stack i h).append (renderAt stack is hrest) (by omega) (by omega)

theorem renderCases {k start : Nat} {stack : List Construct} {below : List String}
    (cases : List (List Instruction))
    (h : At lines k (Body.renderCases locals (stack.length + 1) cases ++ below)
      (ladder start (cases.length + 2) ++ stack)) :
    Placed locals lines k (k + (Body.renderCases locals (stack.length + 1) cases).length)
      (Body.casesSwitches cases) := by
  match cases with
  | [] => exact .nil
  | c :: cs =>
    obtain ⟨k', hle, hlength, hrest⟩ := h.caseRest
    have hcode := renderAt _ c h.caseCode.1
    rw [← hlength, Body.casesSwitches]
    refine (hcode.mono ?_ hle).append (renderCases cs hrest) ?_ ?_
    all_goals omega

end

end Placed

/-- **Rendered code is well bracketed, and its switches jump to the right places.**  The lines are
read to their end, each is indented by two spaces for each construct open around it, nothing is
open at the end, and the switches of the body, however deep, are rendered in order with all their
jumps going where they should. -/
theorem Body.render_brackets_and_jumps (locals : Locals) (body : Body) :
    Construct.openAt (render locals body) (render locals body).length = some [] ∧
    (∀ (k : Nat) (line : String), (render locals body)[k]? = some line →
      ∃ stack, Construct.openAt (render locals body) k = some stack ∧
        Line.indentation line = 2 * around line stack) ∧
    ∃ places : List Nat, places.Pairwise (· < ·) ∧
      List.Forall₂ (fun k switch => ∃ depth targets,
        Ladder locals (render locals body) k depth targets switch.1 switch.2)
        places (switches body) := by
  have hfits : Fits 0 (render locals body) [] [] := .renderAt locals 0 [] body
  have hstart : At (render locals body) 0
      (renderAt locals ([] : List Construct).length body ++ []) [] := by
    rw [List.append_nil]
    exact .start _
  obtain ⟨places, hsorted, -, hladders⟩ := Placed.renderAt [] body hstart
  refine ⟨?_, fun k line hline => hfits.aligned hline, places, hsorted, hladders⟩
  rw [Construct.openAt, List.take_length, hfits.read]

end Structurer
