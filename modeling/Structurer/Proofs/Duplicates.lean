/-
**What merging duplicate nodes makes of constants.**

Two nodes are duplicates if their code is the same, and the code of constants is compared as numbers are.  A NaN
equals nothing and is never merged away; the two zeros are equal, and a zero may take the place of the
other.  This is all that a merge can change: the removed body and the one kept instead have one text exactly if
their zeros have the same signs.
-/

import Structurer.Proofs.Comments
import Structurer.Proofs.Contents
import Structurer.Proofs.Rules.Redirect

namespace Structurer

open List Body

/-! ### Zeros -/

namespace Number.Binary

variable {f : Format} {v w : Binary f}

def zeroSign? : Binary f → Option Bool
  | finite negative significand _ => if significand = 0 then some negative else none
  | _ => none

theorem length_zeroSign (h : v.equal w = true) :
    v.zeroSign?.toList.length = w.zeroSign?.toList.length := by
  cases v with
  | nan => cases h
  | infinite n => cases w <;> first | rfl | cases h
  | finite n s e =>
    cases w with
    | finite n' s' e' =>
      simp only [equal, Bool.or_eq_true, Bool.and_eq_true, beq_iff_eq] at h
      rcases h with ⟨rfl, rfl⟩ | ⟨⟨rfl, rfl⟩, rfl⟩ <;> rfl
    | _ => cases h

/-- **Equal numbers have one text exactly if they are not zeros of different signs.** -/
theorem display_eq_iff (h : v.equal w = true) :
    v.display = w.display ↔ v.zeroSign? = w.zeroSign? := by
  cases v with
  | nan => cases h
  | infinite n =>
    cases w with
    | infinite n' =>
      simp only [equal, beq_iff_eq] at h
      rw [h]
      exact ⟨fun _ => rfl, fun _ => rfl⟩
    | _ => cases h
  | finite n s e =>
    cases w with
    | finite n' s' e' =>
      simp only [equal, Bool.or_eq_true, Bool.and_eq_true, beq_iff_eq] at h
      rcases h with ⟨rfl, rfl⟩ | ⟨⟨rfl, rfl⟩, rfl⟩
      · cases n <;> cases n' <;> simp [display, zeroSign?]
      · exact ⟨fun _ => rfl, fun _ => rfl⟩
    | _ => cases h

end Number.Binary

mutual

def Instruction.zeros : Instruction → List Bool
  | .f32Const v => v.zeroSign?.toList
  | .f64Const v => v.zeroSign?.toList
  | .cond _ _ t e => Body.zeros t ++ Body.zeros e
  | .loop _ _ _ b => Body.zeros b
  | .switch _ cs => Body.casesZeros cs
  | _ => []

def Body.zeros : List Instruction → List Bool
  | [] => []
  | i :: is => Instruction.zeros i ++ Body.zeros is

def Body.casesZeros : List (List Instruction) → List Bool
  | [] => []
  | c :: cs => Body.zeros c ++ Body.casesZeros cs

end

theorem Instruction.zeros_of_comment {i : Instruction} (h : i.isComment = true) : i.zeros = [] := by
  cases i with
  | comment text => rfl
  | _ => cases h

mutual

theorem Instruction.zeros_bare (i : Instruction) : i.bare.zeros = i.zeros := by
  cases i with
  | cond p r t e =>
    rw [Instruction.bare, Instruction.zeros, Instruction.zeros, Body.zeros_bare t, Body.zeros_bare e]
  | loop l p r b => rw [Instruction.bare, Instruction.zeros, Instruction.zeros, Body.zeros_bare b]
  | switch s cs => rw [Instruction.bare, Instruction.zeros, Instruction.zeros, Body.casesZeros_bare cs]
  | _ => rfl

theorem Body.zeros_bare (body : List Instruction) : Body.zeros (bare body) = Body.zeros body := by
  match body with
  | [] => rfl
  | i :: is =>
    cases h : i.isComment with
    | true =>
      rw [Body.bare_cons_of_comment h, Body.zeros, Instruction.zeros_of_comment h, Body.zeros_bare is,
        nil_append]
    | false =>
      rw [bare_cons_of_real h, Body.zeros, Body.zeros, Instruction.zeros_bare i,
        Body.zeros_bare is]

theorem Body.casesZeros_bare (cs : List (List Instruction)) :
    Body.casesZeros (Body.casesBare cs) = Body.casesZeros cs := by
  match cs with
  | [] => rfl
  | c :: cs =>
    rw [Body.casesBare, Body.casesZeros, Body.casesZeros, Body.zeros_bare c, Body.casesZeros_bare cs]

end

theorem Body.zeros_real (body : Body) : Body.zeros (real body) = Body.zeros body := by
  rw [← Body.zeros_bare (real body), bare_real, Body.zeros_bare]

/-! ### Texts of the same code -/

/-- Two texts of equal size, with as many signs each, that are equal exactly if the signs are. -/
structure Tracks (xs ys : List String) (ss ts : List Bool) : Prop where
  lines : xs.length = ys.length
  signs : ss.length = ts.length
  iff : xs = ys ↔ ss = ts

namespace Tracks

variable {xs ys xs' ys' : List String} {ss ts ss' ts' : List Bool}

theorem refl (xs : List String) (ss : List Bool) : Tracks xs xs ss ss :=
  ⟨rfl, rfl, Iff.intro (fun _ => rfl) fun _ => rfl⟩

theorem text (xs : List String) : Tracks xs xs [] [] := refl xs []

theorem append (h : Tracks xs ys ss ts) (h' : Tracks xs' ys' ss' ts') :
    Tracks (xs ++ xs') (ys ++ ys') (ss ++ ss') (ts ++ ts') where
  lines := by rw [length_append, length_append, h.lines, h'.lines]
  signs := by rw [length_append, length_append, h.signs, h'.signs]
  iff := by
    constructor
    · intro heq
      obtain ⟨hx, hx'⟩ := append_inj heq h.lines
      rw [h.iff.1 hx, h'.iff.1 hx']
    · intro heq
      obtain ⟨hs, hs'⟩ := append_inj heq h.signs
      rw [h.iff.2 hs, h'.iff.2 hs']

theorem constant {f : Number.Format} {v w : Number.Binary f} (h : v.equal w = true) (depth : Nat)
    (keyword : String) :
    Tracks [indented depth (keyword ++ v.display)] [indented depth (keyword ++ w.display)]
      v.zeroSign?.toList w.zeroSign?.toList where
  lines := rfl
  signs := Number.Binary.length_zeroSign h
  iff := by
    have hline : [indented depth (keyword ++ v.display)] = [indented depth (keyword ++ w.display)] ↔
        v.display = w.display := by
      simp [indented, String.append_right_inj]
    have hsign : v.zeroSign?.toList = w.zeroSign?.toList ↔ v.zeroSign? = w.zeroSign? := by
      cases v.zeroSign? <;> cases w.zeroSign? <;> simp
    rw [hline, hsign, Number.Binary.display_eq_iff h]

end Tracks

theorem Body.tracks_steps (locals : Locals) :
    SameSteps
      (fun a b => ∀ depth, Tracks (a.render locals depth) (b.render locals depth) a.zeros b.zeros)
      (fun a b => ∀ depth, Tracks (renderAt locals depth a) (renderAt locals depth b)
        (Body.zeros a) (Body.zeros b))
      (fun a b => ∀ depth, Tracks (renderCases locals depth a) (renderCases locals depth b)
        (Body.casesZeros a) (Body.casesZeros b)) where
  leaf i _ _ depth := Tracks.refl _ _
  f32Const v w h depth := Tracks.constant h depth "f32.const "
  f64Const v w h depth := Tracks.constant h depth "f64.const "
  cond p r t t' e e' he hthen helse depth := by
    have head := (Tracks.text [indented depth ("if" ++ blockType p r)]).append (hthen (depth + 1))
    have last := Tracks.text [indented depth "end"]
    -- an empty arm has no line of its own, and both arms are empty or neither is
    cases e with
    | nil =>
      cases e' with
      | nil =>
        simpa [Instruction.render, Instruction.zeros, renderAt] using
          (head.append (helse (depth + 1))).append last
      | cons => simp [same] at he
    | cons i is =>
      cases e' with
      | nil => simp [same] at he
      | cons j js =>
        have middle := (Tracks.text [indented depth "else"]).append (helse (depth + 1))
        simpa [Instruction.render, Instruction.zeros] using (head.append middle).append last
  loop l p r c c' hbody depth := by
    have head := (Tracks.text [indented depth ("loop " ++ l.display ++ blockType p r)]).append
      (hbody (depth + 1))
    simpa [Instruction.render, Instruction.zeros] using
      head.append (Tracks.text [indented depth "end"])
  switch k cs cs' hlength hcases depth := by
    have head := (Tracks.text (switchHead depth cs.length ++
      [indented (depth + 2 + cs.length) ("local.get $" ++ locals.name k),
        indented (depth + 2 + cs.length) (jumpTable cs.length)])).append (hcases (depth + 1))
    have last := Tracks.text [indented (depth + 1) "end", indented (depth + 1) "unreachable",
      indented depth "end"]
    simpa [Instruction.render, Instruction.zeros, hlength] using head.append last
  nil _ := Tracks.text []
  cons i j is js _ hi his depth := (hi depth).append (his depth)
  noCases _ := Tracks.text []
  nextCase c d cs ds hsame hlength hcase hrest depth := by
    have head := (Tracks.text [indented (depth + 1 + cs.length) "end"]).append
      (hcase (depth + 1 + cs.length))
    have last := (Tracks.text (if fallsThrough c then
      [indented (depth + 1 + cs.length) ("br " ++ toString (cs.length + 1))] else [])).append
      (hrest depth)
    simpa [renderCases, Body.casesZeros, ← hlength, ← fallsThrough_of_same c d hsame]
      using head.append last

/-- **Bodies of the same code have one text exactly if their zeros have the same signs.** -/
theorem Body.render_eq_iff {a b : Body} (h : same a b = true) (locals : Locals) :
    render locals a = render locals b ↔ Body.zeros a = Body.zeros b :=
  ((tracks_steps locals).body a b h 0).iff

/-! ### Merges -/

/-- A node of a graph is removed, and another one with the same exit and stacks takes its place. -/
structure Graph.Merges (g g' : Graph) (keepId dupId : NodeId) (keep dup : Node) : Prop where
  kept : (keepId, keep) ∈ g.nodes
  removed : (dupId, dup) ∈ g.nodes
  notEntry : dupId ≠ g.entry
  redirected : ∃ g₁, g.redirectInputs dupId keepId = .ok g₁ ∧ g' = g₁.erase dupId
  ids : g'.ids = g.ids.filter (· ≠ dupId)
  exit : keep.exit = dup.exit
  inputStack : keep.inputStack = dup.inputStack
  outputStack : keep.outputStack = dup.outputStack

open Reduce in
theorem mergeDuplicates_eq_some {g g' : Graph} (h : mergeDuplicates g = .ok (some g')) :
    ∃ keepId dupId keep dup, g.Merges g' keepId dupId keep dup ∧
      sameCode keep.body dup.body = true := by
  unfold mergeDuplicates at h
  cases hd : duplicates? g.entry g.nodes with
  | none => rw [hd] at h; cases h
  | some e =>
    obtain ⟨keepId, dupId⟩ := e
    rw [hd] at h
    obtain ⟨g₁, hg₁, h⟩ := Fallible.bind_eq_ok_iff.1 h
    cases h
    obtain ⟨l₁, l₂, keep, dup, hnodes, hdup, hentry, hsame⟩ := duplicates?_eq_some hd
    simp only [sameNode, Bool.and_eq_true, beq_iff_eq] at hsame
    obtain ⟨⟨⟨⟨⟨hexit, _⟩, _⟩, hin⟩, hout⟩, hcode⟩ := hsame
    have hids : (g₁.erase dupId).ids = g.ids.filter (· ≠ dupId) := by
      rw [← Graph.map_fst_code, (Graph.code_erase g₁ dupId).1,
        (Graph.sameCode_redirectInputs hg₁).1.code, ← Graph.map_fst_code, filter_map]
      rfl
    exact ⟨keepId, dupId, keep, dup,
      ⟨by simp [hnodes], by simp [hnodes, hdup], hentry, ⟨g₁, hg₁, rfl⟩, hids, hexit, hin, hout⟩, hcode⟩

/-- **Whenever a node is removed as a duplicate, the node kept instead has the same exit and the same stacks,
and the two bodies without their comments have one text exactly if their zeros have the same signs.**  In
particular they are one body if no zero is negative. -/
theorem mergeDuplicates_text {g g' : Graph} (merged : Reduce.mergeDuplicates g = .ok (some g')) :
    ∃ keepId dupId keep dup, g.Merges g' keepId dupId keep dup ∧
      (∀ locals, Body.render locals keep.body.real = Body.render locals dup.body.real ↔
        Body.zeros keep.body = Body.zeros dup.body) ∧
      (∀ locals, Body.render locals (Body.bare keep.body) = Body.render locals (Body.bare dup.body) ↔
        Body.zeros keep.body = Body.zeros dup.body) ∧
      (Body.Plain keep.body → Body.Plain dup.body → keep.body.real = dup.body.real) := by
  obtain ⟨keepId, dupId, keep, dup, hmerges, hcode⟩ := mergeDuplicates_eq_some merged
  refine ⟨keepId, dupId, keep, dup, hmerges, fun locals => ?_, fun locals => ?_, fun hk hd => ?_⟩
  · rw [Body.render_eq_iff hcode, Body.zeros_real, Body.zeros_real]
  · have hbare := Body.same_bare _ _ hcode
    rw [Body.bare_real, Body.bare_real] at hbare
    rw [Body.render_eq_iff hbare, Body.zeros_bare, Body.zeros_bare]
  · exact Machine.Body.eq_of_same _ _ (Body.plain_real hk) (Body.plain_real hd) hcode

def constantArms (first second : Body) : Graph where
  nodes :=
    [(⟨0⟩, { Node.new [.call "test" [] [.i32]] [] [] with exit := .branch ⟨1⟩ ⟨2⟩ }),
      (⟨1⟩, { Node.new (first ++ [.ret]) [] [] with inputs := .ofList [⟨0⟩] }),
      (⟨2⟩, { Node.new (second ++ [.ret]) [] [] with inputs := .ofList [⟨0⟩] })]
  nextSerial := 3
  entry := ⟨0⟩

def negativeArms : Graph :=
  constantArms [.comment "left", .f64Const (.zero true)] [.f64Const (.zero true)]

/-- Two arms that return the negative zero are merged, and nothing of their text is lost. -/
theorem mergeDuplicates_text_negativeArms :
    ∃ g', Reduce.mergeDuplicates negativeArms = .ok (some g') ∧
      ∃ keepId dupId keep dup, negativeArms.Merges g' keepId dupId keep dup ∧
        ∀ locals, Body.render locals keep.body.real = Body.render locals dup.body.real ↔
          Body.zeros keep.body = Body.zeros dup.body := by
  refine ⟨_, rfl, ?_⟩
  obtain ⟨keepId, dupId, keep, dup, hmerges, htext, _⟩ := mergeDuplicates_text (g := negativeArms) rfl
  exact ⟨keepId, dupId, keep, dup, hmerges, htext⟩

/-- The arm that returns the negative zero is removed in favour of one that returns the positive zero, and the
two bodies have different texts. -/
theorem mergeDuplicates_loses_sign :
    ∃ g', Reduce.mergeDuplicates (constantArms [.f64Const (.zero false)] [.f64Const (.zero true)]) =
        .ok (some g') ∧
      g'.ids = [⟨0⟩, ⟨1⟩] ∧
      Body.render .empty [.f64Const (.zero false), .ret] = ["f64.const 0.0", "return"] ∧
      Body.render .empty [.f64Const (.zero true), .ret] = ["f64.const -0.0", "return"] :=
  ⟨_, rfl, rfl, rfl, rfl⟩

end Structurer
