/-
**A graph and the graph without its comments, side by side.**

The same operation is done on both graphs.  If it comes to a result on both, then the one result is the other
without its comments, provided that the code is steady; and the code stays steady.
-/

import Structurer.Proofs.Bare
import Structurer.Proofs.Contents
import Structurer.Proofs.Steady

namespace Structurer

open List

/-! ### Two results side by side -/

namespace Fallible

variable {α β γ δ ε : Type} {x : Except ε α} {y : Except ε β}

def Follows (R : α → β → Prop) (x : Except ε α) (y : Except ε β) : Prop :=
  ∀ a b, x = .ok a → y = .ok b → R a b

theorem Follows.bind {Q : α → β → Prop} {R : γ → δ → Prop} {f : α → Except ε γ} {k : β → Except ε δ}
    (hx : Follows Q x y) (hf : ∀ a b, Q a b → Follows R (f a) (k b)) : Follows R (x >>= f) (y >>= k) := by
  intro c d hc hd
  obtain ⟨a, ha, hc⟩ := bind_eq_ok_iff.1 hc
  obtain ⟨b, hb, hd⟩ := bind_eq_ok_iff.1 hd
  exact hf a b (hx a b ha hb) c d hc hd

theorem Follows.pure {R : α → β → Prop} {a : α} {b : β} (h : R a b) :
    Follows R (pure a : Except ε α) (pure b) := by
  intro a' b' ha hb
  cases ha
  cases hb
  exact h

theorem Follows.of_map {R : α → β → Prop} {f : β → α} (h : x = f <$> y)
    (hR : ∀ b, y = .ok b → R (f b) b) : Follows R x y := by
  intro a b ha hb
  subst hb
  subst h
  cases ha
  exact hR b rfl

theorem Follows.of_eq {x y : Except ε α} (h : x = y) : Follows Eq x y := by
  intro a b ha hb
  rw [h, hb] at ha
  cases ha
  rfl

theorem Follows.foldlM {R : α → β → Prop} {f : α → γ → Except ε α} {k : β → γ → Except ε β}
    (hf : ∀ a b c, R a b → Follows R (f a c) (k b c)) (l : List γ) {a : α} {b : β} (h : R a b) :
    Follows R (l.foldlM f a) (l.foldlM k b) := by
  induction l generalizing a b with
  | nil => exact .pure h
  | cons c l ih =>
    rw [foldlM_cons, foldlM_cons]
    exact (hf a b c h).bind fun a' b' h' => ih h'

theorem findM?_map {f : α → β} {p : β → Except ε Bool} (l : List α) :
    (l.map f).findM? p = Option.map f <$> l.findM? fun a => p (f a) := by
  induction l with
  | nil => rfl
  | cons a l ih =>
    rw [map_cons, List.findM?, List.findM?, map_bind]
    congr 1
    funext r
    cases r with
    | false => exact ih
    | true => rfl

theorem mem_of_findM? {p : α → Except ε Bool} {l : List α} {a : α} (h : l.findM? p = .ok (some a)) :
    a ∈ l := by
  induction l with
  | nil => cases h
  | cons b l ih =>
    rw [List.findM?] at h
    obtain ⟨r, _, h⟩ := bind_eq_ok_iff.1 h
    cases r with
    | true =>
      cases h
      exact .head _
    | false => exact .tail _ (ih h)

end Fallible

open Fallible

theorem findSome?_rel {α β γ : Type} {R : β → γ → Prop} {f : α → Option β} {k : α → Option γ} {l : List α}
    (h : ∀ a ∈ l, Option.Rel R (f a) (k a)) : Option.Rel R (l.findSome? f) (l.findSome? k) := by
  induction l with
  | nil => exact .none
  | cons a l ih =>
    rw [findSome?_cons, findSome?_cons]
    have ha := h a (.head _)
    generalize f a = r at ha ⊢
    generalize k a = r' at ha ⊢
    cases ha with
    | none => exact ih fun b hb => h b (.tail _ hb)
    | some hab => exact .some hab

/-! ### Operations on graphs -/

namespace Graph

def Steady (g : Graph) : Prop := ∀ e ∈ g.code, Body.Steady e.2

instance (g : Graph) : Decidable g.Steady := inferInstanceAs (Decidable (∀ e ∈ g.code, _))

/-- The first graph is the second one without comments, and the code of the second one is steady. -/
structure Bares (g₀ g : Graph) : Prop where
  eq : g₀ = g.bare
  steady : g.Steady
  numbered : g.Numbered

namespace Bares

variable {g₀ g : Graph} {id : NodeId}

section

variable (h : g₀.Bares g)

include h

theorem entry : g₀.entry = g.entry := by rw [h.eq, bare_entry]

theorem ids : g₀.ids = g.ids := by rw [h.eq, ids_bare]

theorem isSolved : g₀.isSolved = g.isSolved := by rw [h.eq, isSolved_bare]

theorem node (id : NodeId) :
    Follows (fun n₀ n => n₀ = n.bare ∧ g.get? id = some n) (g₀.node id) (g.node id) := by
  rw [h.eq]
  exact .of_map (node_bare g id) fun n hn => ⟨rfl, node_eq_ok_iff.1 hn⟩

theorem steady_body {n : Node} (hn : g.get? id = some n) : Body.Steady n.body :=
  h.steady _ (mem_code_of_get? hn)

theorem of_sameCode {g₀' g' : Graph} (hsame : SameCode g g') (heq : g₀' = g'.bare) :
    g₀'.Bares g' where
  eq := heq
  steady := by
    unfold Steady
    rw [hsame.code]
    exact h.steady
  numbered := hsame.numbered h.numbered

theorem setExit (id : NodeId) (exit : Exit) :
    Follows Bares (g₀.setExit id exit) (g.setExit id exit) := by
  rw [h.eq]
  exact .of_map (setExit_bare g id exit) fun g' hg' => h.of_sameCode (sameCode_setExit hg').1 rfl

theorem redirectEdge (source old new : NodeId) :
    Follows Bares (g₀.redirectEdge source old new) (g.redirectEdge source old new) := by
  rw [h.eq]
  exact .of_map (redirectEdge_bare g source old new) fun g' hg' =>
    h.of_sameCode (sameCode_redirectEdge hg').1 rfl

theorem redirectInputs (old new : NodeId) :
    Follows Bares (g₀.redirectInputs old new) (g.redirectInputs old new) := by
  rw [h.eq]
  exact .of_map (redirectInputs_bare g old new) fun g' hg' =>
    h.of_sameCode (sameCode_redirectInputs hg').1 rfl

theorem withEntry (id : NodeId) : Bares { g₀ with entry := id } { g with entry := id } where
  eq := by rw [h.eq]; rfl
  steady := h.steady
  numbered := ⟨h.numbered.nodup, h.numbered.issued⟩

theorem moveEntry (old new : NodeId) :
    (Reduce.moveEntry g₀ old new).Bares (Reduce.moveEntry g old new) := by
  unfold Reduce.moveEntry
  rw [h.entry]
  split
  · exact h.withEntry new
  · exact h

theorem modify {f₀ f : Node → Node}
    (hf : ∀ n, g.get? id = some n → (f n).bare = f₀ n.bare ∧ Body.Steady (f n).body) :
    (g₀.modify id f₀).Bares (g.modify id f) where
  eq := by
    rw [h.eq]
    simp only [bare, Graph.modify, List.map_map, Graph.mk.injEq, and_true]
    refine map_congr_left fun e he => ?_
    by_cases hi : e.1 = id
    · have hget : g.get? id = some e.2 := hi ▸ h.numbered.get?_of_mem he
      simp [hi, (hf e.2 hget).1]
    · simp [hi]
  steady := by
    intro e he
    simp only [code, Graph.modify, List.map_map, mem_map] at he
    obtain ⟨e', he', rfl⟩ := he
    by_cases hi : e'.1 = id
    · have hget : g.get? id = some e'.2 := hi ▸ h.numbered.get?_of_mem he'
      simpa [hi] using (hf e'.2 hget).2
    · simpa [hi] using h.steady_body (h.numbered.get?_of_mem he')
  numbered := h.numbered.modify id f

theorem erase (id : NodeId) : (g₀.erase id).Bares (g.erase id) where
  eq := by rw [h.eq, bare_erase]
  steady := by
    intro e he
    rw [(code_erase g id).1] at he
    exact h.steady e (mem_filter.1 he).1
  numbered := h.numbered.erase id

theorem eraseOrphan (id : NodeId) : (g₀.eraseOrphan id).Bares (g.eraseOrphan id) := by
  have heq : g₀.eraseOrphan id = (g.eraseOrphan id).bare := by rw [h.eq, bare_eraseOrphan]
  rcases eraseOrphan_cases g id with hg | hg
  · rw [heq, hg, bare_erase, ← h.eq]
    exact h.erase id
  · rw [heq, hg, ← h.eq]
    exact h

theorem removeNode (id : NodeId) :
    Follows (fun r₀ r => r₀.1 = r.1.bare ∧ g.get? id = some r.1 ∧ r₀.2.Bares r.2) (g₀.removeNode id)
      (g.removeNode id) := by
  rw [h.eq]
  refine .of_map (removeNode_bare g id) fun r hr => ?_
  obtain ⟨hn, hrest⟩ := removeNode_cases hr
  refine ⟨rfl, hn, ?_⟩
  show r.2.bare.Bares r.2
  have herase := h.erase id
  rwa [h.eq, ← bare_erase, ← hrest] at herase

theorem removeUnreachable :
    Follows (fun r₀ r => r₀.1 = r.1 ∧ r₀.2.Bares r.2) g₀.removeUnreachable g.removeUnreachable := by
  rw [h.eq]
  refine .of_map (removeUnreachable_bare g) fun r hr => ?_
  obtain ⟨reached, _, hcode, hnumbered⟩ := code_removeUnreachable hr
  refine ⟨rfl, rfl, fun e he => ?_, hnumbered h.numbered⟩
  rw [hcode] at he
  exact h.steady e (mem_filter.1 he).1

theorem addNode {n₀ n : Node} (hn : n₀ = n.bare) (hs : Body.Steady n.body) :
    (g₀.addNode n₀).1 = (g.addNode n).1 ∧ (g₀.addNode n₀).2.Bares (g.addNode n).2 := by
  rw [h.eq, hn, bare_addNode]
  refine ⟨rfl, rfl, fun e he => ?_, h.numbered.addNode n⟩
  rw [code_addNode, mem_append, mem_singleton] at he
  rcases he with he | rfl
  · exact h.steady e he
  · exact hs

theorem recalculateInputs : g₀.recalculateInputs.Bares g.recalculateInputs :=
  h.of_sameCode (sameCode_recalculateInputs g) (by rw [h.eq, bare_recalculateInputs])

theorem renumber : g₀.renumber.Bares g.renumber :=
  h.of_sameCode (sameCode_renumber g) (by rw [h.eq, bare_renumber])

theorem splitOff (region : List NodeId) (entry : NodeId) :
    Follows (fun r₀ r => ∀ part₀ rest₀, r₀ = .ok (part₀, rest₀) →
        ∃ part rest, r = .ok (part, rest) ∧ part₀.Bares part ∧ rest₀.Bares rest)
      (g₀.splitOff region entry) (g.splitOff region entry) := by
  rw [h.eq]
  refine .of_map (splitOff_bare g region entry) fun r hr part₀ rest₀ hhalves => ?_
  cases r with
  | error e => cases hhalves
  | ok halves =>
    obtain ⟨part, rest⟩ := halves
    cases hhalves
    have hdealt := dealt_of_splitOff hr h.numbered
    refine ⟨part, rest, rfl, ⟨rfl, fun e he => ?_, hdealt.part_numbered⟩, rfl, fun e he => ?_,
      hdealt.rest_numbered⟩
    · obtain ⟨id, _, hmem⟩ := hdealt.part_code e he
      exact h.steady (id, e.2) hmem
    · rw [hdealt.rest_code] at he
      exact h.steady e (mem_filter.1 he).1

end

end Bares

end Graph

/-! ### Where rules apply -/

namespace Body

theorem real_bare (body : Body) : real (bare body) = bare body := by
  rw [bare_eq_map, real, filter_map]
  congr 1
  simp [real, filter_filter, Function.comp_def]

theorem length_real_bare (body : Body) : (real (bare body)).length = (real body).length := by
  rw [real_bare, bare_eq_map, length_map]

theorem hasNoCode_bare (body : Body) : hasNoCode (bare body) = hasNoCode body := by
  rw [Bool.eq_iff_iff, ← bare_eq_nil_iff, ← bare_eq_nil_iff, bare_bare]

theorem any_isStructured_bare (body : Body) :
    (bare body).any (·.isStructured) = body.any (·.isStructured) := by
  induction body with
  | nil => rfl
  | cons i is ih =>
    cases hi : i.isComment with
    | true =>
      rw [bare_cons_of_comment hi, any_cons, ih]
      cases i <;> first | rfl | cases hi
    | false => rw [bare_cons_of_real hi, any_cons, any_cons, ih, Instruction.isStructured_bare]

end Body

namespace Graph

variable (g : Graph)

@[simp] theorem onlyInput_bare (target pred : NodeId) :
    g.bare.onlyInput target pred = g.onlyInput target pred := by
  simp only [onlyInput, node_bare, bind_map_left, bare_entry, Node.bare_inputs]
  rfl

@[simp] theorem canAbsorb_bare (dup : Bool) (target pred : NodeId) :
    g.bare.canAbsorb dup target pred = g.canAbsorb dup target pred := by
  simp [canAbsorb]

@[simp] theorem hasExit_bare (id : NodeId) (exit : Exit) :
    g.bare.hasExit id exit = g.hasExit id exit := by
  simp [hasExit]

theorem firstArm?_bare (p : NodeId → Arm → Except Fault Bool) : g.bare.firstArm? p = g.firstArm? p := by
  simp [firstArm?, bare_nodes, findSomeM?_map]

end Graph

namespace Reduce

variable (g : Graph)

theorem trivialBranch?_bare : trivialBranch? g.bare = trivialBranch? g := by
  simp [trivialBranch?, Graph.bare_nodes, findSome?_map, Function.comp_def]

theorem emptyNode?_bare : emptyNode? g.bare = emptyNode? g := by
  simp [emptyNode?, Graph.bare_nodes, findSome?_map, Function.comp_def, Body.hasNoCode_bare]

@[simp] theorem isSeq_bare (id : NodeId) : isSeq g.bare id = isSeq g id := by simp [isSeq]

@[simp] theorem isRet_bare (id : NodeId) : isRet g.bare id = isRet g id := by simp [isRet]

theorem smallReturn?_bare (limit : Nat) : smallReturn? g.bare limit =
    Option.map (fun e => (e.1, e.2.bare)) <$> smallReturn? g limit := by
  simp only [smallReturn?, Graph.bare_nodes, findM?_map, Node.bare_exit, Node.bare_body, Node.bare_inputs,
    Graph.bare_entry, Body.length_real_bare, Body.any_isStructured_bare, funext (isSeq_bare g)]

theorem sequence?_bare : sequence? g.bare = sequence? g := by
  simp [sequence?, Graph.bare_nodes, findSomeM?_map]

theorem terminating?_bare (dup : Bool) : terminating? dup g.bare = terminating? dup g := by
  simp [terminating?, Graph.bare_nodes, findSomeM?_map]

theorem oneTerminating?_bare (dup : Bool) : oneTerminating? dup g.bare = oneTerminating? dup g := by
  simp [oneTerminating?, Graph.firstArm?_bare]

theorem optional?_bare (dup : Bool) : optional? dup g.bare = optional? dup g := by
  simp [optional?, Graph.firstArm?_bare]

theorem diamond?_bare (dup : Bool) : diamond? dup g.bare = diamond? dup g := by
  simp [diamond?, Graph.bare_nodes, findSomeM?_map]

theorem endless?_bare : endless? g.bare = endless? g := by
  simp [endless?, Graph.bare_nodes, find?_map, Function.comp_def]

theorem while?_bare : while? g.bare = while? g := Graph.firstArm?_bare g _

theorem twoNodeCycle?_bare : twoNodeCycle? g.bare = twoNodeCycle? g := by
  simp [twoNodeCycle?, Graph.bare_nodes, findSomeM?_map]

theorem smallCircle?_bare : smallCircle? g.bare = smallCircle? g := by
  simp [smallCircle?, Graph.firstArm?_bare]

theorem twoExitCircle?_bare : twoExitCircle? g.bare = twoExitCircle? g := by
  simp only [twoExitCircle?, Graph.firstArm?_bare, Graph.node_bare, bind_map_left, Node.bare_exit,
    Graph.onlyInput_bare]
  rfl

/-- A branch on a constant, and the same branch without comments: the constant stands elsewhere. -/
structure OneConstant (g : Graph) (r₀ r : NodeId × Nat × NodeId) : Prop where
  node : r₀.1 = r.1
  next : r₀.2.2 = r.2.2
  place : ∃ n pre v note, (r.1, n) ∈ g.nodes ∧ n.body = pre ++ .i32Const v :: note ∧
    Body.hasNoCode note = true ∧ r.2.1 = pre.length ∧ r₀.2.1 = (Body.bare pre).length

theorem constantBranch?_bare :
    Option.Rel (OneConstant g) (constantBranch? g.bare) (constantBranch? g) := by
  unfold constantBranch?
  rw [Graph.bare_nodes, findSome?_map]
  refine findSome?_rel fun e he => ?_
  obtain ⟨id, n⟩ := e
  simp only [Function.comp_apply, Node.bare_exit, Node.bare_body]
  cases n.exit with
  | seq next => exact .none
  | ret => exact .none
  | branch ifTrue ifFalse =>
    rcases Body.noCode_or_last n.body with hn | ⟨pre, i, note, hbody, hi, hn⟩
    · simp only [Body.bare_of_noCode hn, Body.lastReal?_of_noCode hn, Body.lastReal?]
      exact .none
    · have hbare : Body.lastReal? (Body.bare pre ++ [i.bare]) = some (Body.bare pre).length :=
        Body.lastReal?_append_cons (Body.bare pre) ((Instruction.isComment_bare i).trans hi) rfl
      simp only [hbody, Body.bare_last pre hi hn, Body.lastReal?_append_cons pre hi hn, hbare,
        Option.bind_eq_bind, Option.bind_some, Body.getElem?_middle]
      cases i with
      | i32Const v => exact .some ⟨rfl, rfl, n, pre, v, note, he, hbody, hn, rfl, rfl⟩
      | _ => exact .none

end Reduce

/-! ### Rules -/

namespace Arm

variable (arm : Arm) {body : Body}

theorem bare_toward (h : Body.Steady body) :
    Body.bare (arm.toward body) = arm.toward (Body.bare body) := by
  unfold toward
  split
  · rfl
  · exact Body.bare_negate h

theorem steady_toward (h : Body.Steady body) (params results : StackType) (t e : Body) :
    Body.Steady (arm.toward body ++ [.cond params results t e]) := by
  unfold toward
  split
  · exact h.append rfl
  · exact h.negate params results t e

end Arm

namespace Graph.Bares

open Reduce

variable {g₀ g : Graph}

abbrev OfRule : Option Graph → Option Graph → Prop := Option.Rel Bares

theorem change {f₀ f : Node → Node} {id : NodeId} (h : g₀.Bares g)
    (hf : ∀ n, g.get? id = some n → (f n).bare = f₀ n.bare ∧ Body.Steady (f n).body) (exit : Exit) :
    Follows Bares ((g₀.modify id f₀).setExit id exit) ((g.modify id f).setExit id exit) :=
  (h.modify hf).setExit id exit

theorem foldConstantBranch (h : g₀.Bares g) :
    Follows OfRule (Reduce.foldConstantBranch g₀) (Reduce.foldConstantBranch g) := by
  unfold Reduce.foldConstantBranch
  rw [h.eq]
  have hsite := constantBranch?_bare g
  generalize constantBranch? g.bare = r₀ at hsite ⊢
  generalize constantBranch? g = r at hsite ⊢
  cases hsite with
  | none => exact .pure .none
  | @some r₀ r hr =>
    obtain ⟨id₀, k₀, next₀⟩ := r₀
    obtain ⟨id, k, next⟩ := r
    obtain ⟨hid, hnext, n, pre, v, note, hmem, hbody, hn, hk, hk₀⟩ := hr
    dsimp only at hid hnext hmem hk hk₀ ⊢
    subst hid hnext hk hk₀
    rw [← h.eq]
    refine (h.change (fun m hm => ?_) (.seq next₀)).bind fun _ _ h' => .pure (.some h')
    cases (h.numbered.get?_of_mem hmem).symm.trans hm
    refine ⟨?_, ?_⟩
    -- the constant is the last instruction in both bodies, although at different positions
    · have hlast : Body.bare (pre ++ .i32Const v :: note) = Body.bare pre ++ [.i32Const v] :=
        Body.bare_last pre rfl hn
      simp only [Node.bare, hbody, hlast, Body.eraseIdx_middle, Body.bare_append, Body.bare_of_noCode hn]
    · have hs := h.steady_body hm
      rw [hbody] at hs
      simp only [hbody, Body.eraseIdx_middle]
      exact hs.dropConstant hn

theorem bypassEmptyNode (h : g₀.Bares g) :
    Follows OfRule (Reduce.bypassEmptyNode g₀) (Reduce.bypassEmptyNode g) := by
  unfold Reduce.bypassEmptyNode
  rw [h.eq, emptyNode?_bare, ← h.eq]
  cases emptyNode? g with
  | none => exact .pure .none
  | some e => exact (h.redirectInputs e.1 e.2).bind fun _ _ h' => .pure (.some ((h'.moveEntry _ _).erase _))

theorem returnFrom {body : Body} (hs : Body.Steady body) (h : g₀.Bares g) (pred : NodeId) :
    Follows Bares (Reduce.returnFrom (Body.bare body) g₀ pred) (Reduce.returnFrom body g pred) :=
  h.change (fun n hn => ⟨by simp [Node.bare], (h.steady_body hn).append hs⟩) .ret

section

variable (h : g₀.Bares g)

include h

theorem inlineSmallReturn (limit : Nat) :
    Follows OfRule (Reduce.inlineSmallReturn limit g₀) (Reduce.inlineSmallReturn limit g) := by
  unfold Reduce.inlineSmallReturn
  have hsite : Follows (Option.Rel fun e₀ e => e₀ = (e.1, e.2.bare) ∧ Body.Steady e.2.body)
      (smallReturn? g₀ limit) (smallReturn? g limit) := by
    rw [h.eq]
    refine .of_map (smallReturn?_bare g limit) fun r hr => ?_
    cases r with
    | none => exact .none
    | some e =>
      exact .some ⟨rfl, h.steady (e.1, e.2.body) (mem_map_of_mem (mem_of_findM? hr))⟩
  refine hsite.bind fun r₀ r hr => ?_
  cases hr with
  | none => exact .pure .none
  | some he =>
    obtain ⟨rfl, hs⟩ := he
    refine (Follows.of_eq ?_).bind ?_
    · rw [h.eq, funext (isSeq_bare g)]
      rfl
    · rintro preds _ rfl
      exact (Follows.foldlM (fun _ _ pred h' => returnFrom hs h' pred) preds h).bind
        fun _ _ h' => .pure (.some (h'.eraseOrphan _))

theorem mergeSequence : Follows OfRule (Reduce.mergeSequence g₀) (Reduce.mergeSequence g) := by
  unfold Reduce.mergeSequence
  rw [h.eq, sequence?_bare, ← h.eq]
  refine (Follows.of_eq rfl).bind ?_
  rintro _ (_ | ⟨prev, curr⟩) rfl
  · exact .pure .none
  · refine (h.redirectInputs prev curr).bind fun g₀' g' h' => (h'.removeNode prev).bind ?_
    rintro ⟨first₀, _⟩ ⟨first, _⟩ ⟨rfl, hfirst, h''⟩
    refine .pure (.some (Bares.moveEntry (h''.modify fun n hn => ⟨?_, ?_⟩) prev curr))
    · simp [Node.bare]
    · exact (h'.steady_body hfirst).append (h''.steady_body hn)

theorem joinTerminating (dup : Bool) :
    Follows OfRule (Reduce.joinTerminating dup g₀) (Reduce.joinTerminating dup g) := by
  unfold Reduce.joinTerminating
  rw [h.eq, terminating?_bare, ← h.eq]
  refine (Follows.of_eq rfl).bind ?_
  rintro _ (_ | ⟨id, ifTrue, ifFalse⟩) rfl
  · exact .pure .none
  · refine (h.node ifTrue).bind ?_
    rintro _ t ⟨rfl, _⟩
    refine (h.node ifFalse).bind ?_
    rintro _ e ⟨rfl, _⟩
    refine (h.change (fun n hn => ⟨?_, ?_⟩) .ret).bind fun _ _ h' =>
      .pure (.some ((h'.eraseOrphan _).eraseOrphan _))
    · simp [Node.bare]
    · exact (h.steady_body hn).append rfl

theorem absorbArm (id : NodeId) (arm : Arm) :
    Follows Bares (Reduce.absorbArm g₀ id arm) (Reduce.absorbArm g id arm) := by
  refine (h.node arm.target).bind ?_
  rintro _ t ⟨rfl, _⟩
  refine (h.change (fun n hn => ⟨?_, ?_⟩) (.seq arm.other)).bind fun _ _ h' => .pure (h'.eraseOrphan _)
  · simp [Node.bare, arm.bare_toward (h.steady_body hn)]
  · exact arm.steady_toward (h.steady_body hn) _ _ _ _

theorem joinOneTerminating (dup : Bool) :
    Follows OfRule (Reduce.joinOneTerminating dup g₀) (Reduce.joinOneTerminating dup g) := by
  unfold Reduce.joinOneTerminating
  rw [h.eq, oneTerminating?_bare, ← h.eq]
  refine (Follows.of_eq rfl).bind ?_
  rintro _ (_ | ⟨id, arm⟩) rfl
  · exact .pure .none
  · exact (h.absorbArm id arm).bind fun _ _ h' => .pure (.some h')

theorem joinOptional (dup : Bool) :
    Follows OfRule (Reduce.joinOptional dup g₀) (Reduce.joinOptional dup g) := by
  unfold Reduce.joinOptional
  rw [h.eq, optional?_bare, ← h.eq]
  refine (Follows.of_eq rfl).bind ?_
  rintro _ (_ | ⟨id, arm⟩) rfl
  · exact .pure .none
  · exact (h.absorbArm id arm).bind fun _ _ h' => .pure (.some h')

theorem joinConverging (dup : Bool) :
    Follows OfRule (Reduce.joinConverging dup g₀) (Reduce.joinConverging dup g) := by
  unfold Reduce.joinConverging
  rw [h.eq, diamond?_bare, ← h.eq]
  refine (Follows.of_eq rfl).bind ?_
  rintro _ (_ | d) rfl
  · exact .pure .none
  · refine (h.node d.ifTrue).bind ?_
    rintro _ t ⟨rfl, _⟩
    refine (h.node d.ifFalse).bind ?_
    rintro _ e ⟨rfl, _⟩
    refine (h.change (fun n hn => ⟨?_, ?_⟩) (.seq d.join)).bind fun _ _ h' =>
      .pure (.some ((h'.eraseOrphan _).eraseOrphan _))
    · simp [Node.bare]
    · exact (h.steady_body hn).append rfl

theorem mergeTwoNodeCycle :
    Follows OfRule (Reduce.mergeTwoNodeCycle g₀) (Reduce.mergeTwoNodeCycle g) := by
  unfold Reduce.mergeTwoNodeCycle
  rw [h.eq, twoNodeCycle?_bare, ← h.eq]
  refine (Follows.of_eq rfl).bind ?_
  rintro _ (_ | ⟨keep, absorbed⟩) rfl
  · exact .pure .none
  · refine (h.removeNode absorbed).bind ?_
    rintro ⟨_, _⟩ ⟨last, _⟩ ⟨rfl, hlast, h'⟩
    refine (h'.change (fun n hn => ⟨?_, ?_⟩) (.seq keep)).bind fun _ _ h'' => .pure (.some h'')
    · simp [Node.bare]
    · exact (h'.steady_body hn).append (h.steady_body hlast)

theorem closeCircle (id : NodeId) (arm : Arm) (label : LoopLabel) (circle : Body) :
    Follows Bares (Reduce.closeCircle g₀ id arm label (Body.bare circle))
      (Reduce.closeCircle g id arm label circle) := by
  refine h.change (fun n hn => ⟨?_, ?_⟩) (.seq arm.other)
  swap
  · rfl
  simp [Node.bare, arm.bare_toward (h.steady_body hn)]

end

end Graph.Bares

end Structurer
