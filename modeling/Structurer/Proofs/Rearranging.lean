/-
**Code moved around.**

Structuring moves the code of nodes around and puts it into loops with new labels.  Calls and loops
become no more by that, unless nodes may be copied, and every jump stays inside its loop.
-/

import Structurer.Proofs.Contents
import Structurer.Proofs.Upkeep

namespace Structurer

open List

variable {ctx ctx' : Context} {s : Settings} {k : Landmark} {exit : Exit} {α β : Type}
  {before : List (NodeId × Body)}

/-! ### Results, if there are any -/

namespace Fallible

variable {ε : Type} {Q : α → Prop} {l : List α}

def Ensures (x : Except ε α) (Q : α → Prop) : Prop := ∀ a, x = .ok a → Q a

theorem Ensures.pure {a : α} (h : Q a) : Ensures (pure a : Except ε α) Q := by
  intro b hb
  cases hb
  exact h

theorem Ensures.trivial (x : Except ε α) : Ensures x fun _ => True := fun _ _ => True.intro

theorem Ensures.nothing {P : β → Prop} :
    Ensures (Pure.pure none : Except ε (Option β)) fun r => ∀ b, r = some b → P b :=
  .pure nofun

theorem Ensures.fails {P : Prop} : Ensures (Pure.pure false : Except ε Bool) fun r => r = true → P :=
  .pure nofun

theorem Ensures.mono {x : Except ε α} {Q' : α → Prop} (h : Ensures x Q) (hQ : ∀ a, Q a → Q' a) :
    Ensures x Q' :=
  fun a ha => hQ a (h a ha)

theorem Ensures.bind {x : Except ε α} {f : α → Except ε β} {P : β → Prop} (hx : Ensures x Q)
    (hf : ∀ a, Q a → Ensures (f a) P) : Ensures (x >>= f) P := by
  intro b hb
  obtain ⟨a, ha, hb⟩ := bind_eq_ok_iff.1 hb
  exact hf a (hx a ha) b hb

theorem Ensures.andM {x y : Except ε Bool} {P S : Prop} (hx : Ensures x fun r => r = true → P)
    (hy : Ensures y fun r => r = true → S) : Ensures (x <&&> y) fun r => r = true → P ∧ S := by
  refine hx.bind fun r hr => ?_
  cases r with
  | false => exact .fails
  | true => exact hy.mono fun r' hr' h => ⟨hr rfl, hr' h⟩

theorem Ensures.findSomeM? {f : α → Except ε (Option β)} {P : β → Prop}
    (h : ∀ a ∈ l, Ensures (f a) fun r => ∀ b, r = some b → P b) :
    Ensures (l.findSomeM? f) fun r => ∀ b, r = some b → P b := by
  induction l with
  | nil => exact .nothing
  | cons a l ih =>
    rw [findSomeM?_cons]
    refine (h a (.head _)).bind fun r hr => ?_
    cases r with
    | none => exact ih fun b hb => h b (.tail _ hb)
    | some b => exact .pure hr

theorem Ensures.findM? {p : α → Except ε Bool} {P : α → Prop}
    (h : ∀ a ∈ l, Ensures (p a) fun r => r = true → P a) :
    Ensures (l.findM? p) fun r => ∀ a, r = some a → a ∈ l ∧ P a := by
  induction l with
  | nil => exact .nothing
  | cons a l ih =>
    rw [List.findM?]
    refine (h a (.head _)).bind fun r hr => ?_
    cases r with
    | false =>
      refine (ih fun b hb => h b (.tail _ hb)).mono fun r' hr' b hb => ?_
      exact ⟨.tail _ (hr' b hb).1, (hr' b hb).2⟩
    | true =>
      refine .pure fun b hb => ?_
      cases hb
      exact ⟨.head _, hr rfl⟩

theorem Ensures.foldlM {f : β → α → Except ε β} {I : β → Prop}
    (step : ∀ b a, I b → Ensures (f b a) I) {b : β} (h : I b) : Ensures (l.foldlM f b) I := by
  induction l generalizing b with
  | nil => exact .pure h
  | cons a l ih =>
    rw [foldlM_cons]
    exact (step b a h).bind fun b' hb' => ih hb'

end Fallible

open Engine Fallible Code

/-! ### Contexts -/

/-- Labels are given out, but open loops and settings stay. -/
structure Context.Onward (ctx ctx' : Context) : Prop where
  issued : ctx.labels.issued ≤ ctx'.labels.issued
  openLoops : ctx'.labels.openLoops = ctx.labels.openLoops
  settings : ctx'.settings = ctx.settings

theorem Context.Onward.refl (ctx : Context) : ctx.Onward ctx := ⟨Nat.le_refl _, rfl, rfl⟩

theorem Context.Onward.trans {ctx'' : Context} (h : ctx.Onward ctx') (h' : ctx'.Onward ctx'') :
    ctx.Onward ctx'' :=
  ⟨Nat.le_trans h.issued h'.issued, h'.openLoops.trans h.openLoops, h'.settings.trans h.settings⟩

theorem Engine.Work.onward {α : Type} {x : EngineM α} (h : Work x) {a : α}
    (hx : Yields x ctx a ctx') : ctx.Onward ctx' := by
  have hup := h.upkeep ctx
  rw [hx] at hup
  obtain ⟨given, hgiven⟩ := hup.labels
  exact ⟨hgiven.bounds.1, hup.openLoops, hup.settings⟩

def Context.Nested (ctx : Context) : Prop := ∀ l ∈ ctx.labels.openLoops, l.index < ctx.labels.issued

theorem Context.Onward.nested (h : ctx.Onward ctx') (hn : ctx.Nested) : ctx'.Nested := by
  intro l hl
  rw [h.openLoops] at hl
  exact Nat.lt_of_lt_of_le (hn l hl) h.issued

/-! ### Code moved around -/

/-- Is a landmark never copied?  Calls are copied with the nodes they are in, and with short nodes that
return; loops are not in short nodes. -/
def Landmark.Kept (s : Settings) : Landmark → Prop
  | .call _ _ _ => s.allowDuplication = false ∧ s.smallReturnLimit = 0
  | .loop _ => s.allowDuplication = false
  | .jump _ => False

theorem Landmark.Kept.allowDuplication (h : k.Kept s) : s.allowDuplication = false := by
  cases k with
  | call => exact h.1
  | loop => exact h
  | jump => exact h.elim

def Landmark.made (k : Landmark) (n : Nat) : Nat :=
  match k with
  | .loop l => if l.index < n then 1 else 0
  | _ => 0

theorem Landmark.made_mono (k : Landmark) {n n' : Nat} (h : n ≤ n') : k.made n ≤ k.made n' := by
  cases k with
  | loop l =>
    show (if l.index < n then 1 else 0) ≤ if l.index < n' then 1 else 0
    split <;> split <;> omega
  | _ => exact Nat.le_refl _

theorem Landmark.made_succ (k : Landmark) (n : Nat) :
    k.made (n + 1) = k.made n + if .loop ⟨n⟩ = k then 1 else 0 := by
  cases k with
  | loop l =>
    show (if l.index < n + 1 then 1 else 0) = (if l.index < n then 1 else 0) + _
    by_cases h : l.index = n
    · have hl : (⟨n⟩ : LoopLabel) = l := by cases l; simp_all
      simp [h, hl]
    · have hl : (⟨n⟩ : LoopLabel) ≠ l := by rintro rfl; exact h rfl
      simp [hl]
      split <;> split <;> omega
  | _ => simp [Landmark.made]

/-- Is this the code of a graph? -/
structure Graph.Bears (g : Graph) (code : List (NodeId × Body)) : Prop where
  numbered : g.Numbered
  code : g.code = code

/-- The code of a graph moved around. -/
structure Graph.Shuffles (s : Settings) (g g' : Graph) : Prop where
  numbered : g'.Numbered
  scopes : ∀ n around, Scoped n around g.code → Scoped n around g'.code
  total : ∀ k : Landmark, k.Kept s → total k g'.code ≤ total k g.code

/-- Code moved around, with new loops made on the way. -/
structure Rearranged (ctx ctx' : Context) (before after : List (NodeId × Body)) : Prop where
  onward : ctx.Onward ctx'
  scopes : ctx.Nested → Scoped ctx.labels.issued ctx.labels.openLoops before →
    Scoped ctx'.labels.issued ctx.labels.openLoops after
  total : ∀ k : Landmark, k.Kept ctx.settings →
    total k after + k.made ctx.labels.issued ≤ total k before + k.made ctx'.labels.issued

theorem Code.Scoped.mono {n n' : Nat} {around : List LoopLabel} {l : List (NodeId × Body)}
    (h : Scoped n around l) (hn : n ≤ n') : Scoped n' around l :=
  fun e he => (h e he).mono hn fun _ => Iff.rfl

namespace Rearranged

variable {ctx'' : Context} {middle after : List (NodeId × Body)}

theorem refl (ctx : Context) (code : List (NodeId × Body)) : Rearranged ctx ctx code code :=
  ⟨.refl ctx, fun _ h => h, fun _ _ => Nat.le_refl _⟩

theorem trans (h : Rearranged ctx ctx' before middle) (h' : Rearranged ctx' ctx'' middle after) :
    Rearranged ctx ctx'' before after := by
  refine ⟨h.onward.trans h'.onward, fun hnest hsc => ?_, fun k hk => ?_⟩
  · have hsc' := h.scopes hnest hsc
    rw [← h.onward.openLoops] at hsc' ⊢
    exact h'.scopes (h.onward.nested hnest) hsc'
  · have h₁ := h.total k hk
    have h₂ := h'.total k (h.onward.settings ▸ hk)
    omega

theorem onward_right (h : Rearranged ctx ctx' before after) (h' : ctx'.Onward ctx'') :
    Rearranged ctx ctx'' before after := by
  refine ⟨h.onward.trans h', fun hnest hsc => (h.scopes hnest hsc).mono h'.issued, fun k hk => ?_⟩
  have h₁ := h.total k hk
  have h₂ := k.made_mono h'.issued
  omega

end Rearranged

abbrev Context.labelled (ctx : Context) : Context := { ctx with labels := ctx.labels.fresh.2 }

theorem Context.Onward.labelled (ctx : Context) : ctx.Onward ctx.labelled :=
  ⟨Nat.le_succ _, rfl, rfl⟩

theorem Context.Nested.fresh_not_mem (h : ctx.Nested) : ctx.labels.fresh.1 ∉ ctx.labels.openLoops :=
  fun hl => Nat.lt_irrefl _ (h _ hl)

theorem Landmark.made_labelled (k : Landmark) (ctx : Context) :
    k.made ctx.labelled.labels.issued =
      k.made ctx.labels.issued + if .loop ctx.labels.fresh.1 = k then 1 else 0 :=
  k.made_succ ctx.labels.issued

theorem Landmark.Kept.ne_jump (h : k.Kept s) (label : LoopLabel) : k ≠ .jump label := by
  rintro rfl
  exact h

/-! ### Work that moves code around -/

namespace Engine

variable {base : Context} {x : EngineM α} {f : α → EngineM β}

def Brings (x : EngineM α) (ctx : Context) (P : α → Context → Prop) : Prop :=
  ∀ a ctx', Yields x ctx a ctx' → P a ctx'

namespace Brings

variable {P : β → Context → Prop}

theorem pure {b : β} (h : P b ctx) : Brings (Pure.pure b) ctx P := by
  intro b' ctx' hb
  obtain ⟨rfl, rfl⟩ := yields_pure.1 hb
  exact h

theorem throw {e : Failure} : Brings (MonadExcept.throw e) ctx P :=
  fun _ _ h => absurd h yields_throw

theorem bind (h : Brings x ctx fun a ctx' => Brings (f a) ctx' P) : Brings (x >>= f) ctx P := by
  intro b ctx' hb
  obtain ⟨a, ctx₁, ha, hb⟩ := yields_bind.1 hb
  exact h a ctx₁ ha b ctx' hb

theorem step (hon : base.Onward ctx) (hx : Work x)
    (h : ∀ a ctx', base.Onward ctx' → Yields x ctx a ctx' → Brings (f a) ctx' P) :
    Brings (x >>= f) ctx P :=
  bind fun a ctx' ha => h a ctx' (hon.trans (hx.onward ha)) ha

theorem lift {x : Except Fault α} (h : ∀ a, x = .ok a → Brings (f a) ctx P) :
    Brings (liftM x >>= f) ctx P := by
  refine bind fun a ctx' ha => ?_
  obtain ⟨hx, rfl⟩ := yields_lift.1 ha
  exact h a hx

theorem label {f : LoopLabel → EngineM β} (h : Brings (f ctx.labels.fresh.1) ctx.labelled P) :
    Brings (freshLabel >>= f) ctx P := by
  refine bind fun l ctx' hl => ?_
  obtain ⟨rfl, rfl⟩ := yields_freshLabel.1 hl
  exact h

end Brings

/-- Code moved around by work, which tells by its result what became of it. -/
def Moves (ctx : Context) (before : List (NodeId × Body)) (x : EngineM α)
    (Q : α → List (NodeId × Body) → Prop) : Prop :=
  Brings x ctx fun a ctx' => ∃ after, Q a after ∧ Rearranged ctx ctx' before after

namespace Moves

variable {R : α → List (NodeId × Body) → Prop} {Q : β → List (NodeId × Body) → Prop}

theorem pure {b : β} (h : Q b before) : Moves ctx before (Pure.pure b) Q :=
  Brings.pure ⟨before, h, .refl ctx before⟩

theorem bind (hx : Moves ctx before x R)
    (hf : ∀ a middle ctx', R a middle → Moves ctx' middle (f a) Q) : Moves ctx before (x >>= f) Q := by
  refine Brings.bind fun a ctx₁ ha b ctx' hb => ?_
  obtain ⟨middle, hmiddle, hre⟩ := hx a ctx₁ ha
  obtain ⟨after, hafter, hre'⟩ := hf a middle ctx₁ hmiddle b ctx' hb
  exact ⟨after, hafter, hre.trans hre'⟩

theorem skip (hx : Work x) (hf : ∀ a ctx', Yields x ctx a ctx' → Moves ctx' before (f a) Q) :
    Moves ctx before (x >>= f) Q := by
  refine Brings.bind fun a ctx₁ ha b ctx' hb => ?_
  obtain ⟨after, hafter, hre⟩ := hf a ctx₁ ha b ctx' hb
  exact ⟨after, hafter, ((Rearranged.refl ctx before).onward_right (hx.onward ha)).trans hre⟩

theorem lift {x : Except Fault α} (h : ∀ a, x = .ok a → Moves ctx before (f a) Q) :
    Moves ctx before (liftM x >>= f) Q :=
  Brings.lift h

theorem get {f : Context → EngineM β} (h : Moves ctx before (f ctx) Q) :
    Moves ctx before (MonadState.get >>= f) Q := by
  refine Brings.bind fun c ctx' hc => ?_
  obtain ⟨rfl, rfl⟩ := yields_get.1 hc
  exact h

end Moves

end Engine

theorem Graph.Shuffles.rearranged {g g' : Graph} (h : g.Shuffles ctx.settings g') :
    Rearranged ctx ctx g.code g'.code := by
  refine ⟨.refl ctx, fun _ => h.scopes _ _, fun k hk => ?_⟩
  have := h.total k hk
  omega

namespace Graph

variable {g g' g'' : Graph} {id j : NodeId} {n : Node}

theorem Shuffles.trans (h : g.Shuffles s g') (h' : g'.Shuffles s g'') : g.Shuffles s g'' :=
  ⟨h'.numbered, fun m around hsc => h'.scopes m around (h.scopes m around hsc),
    fun k hk => Nat.le_trans (h'.total k hk) (h.total k hk)⟩

theorem SameCode.shuffles (h : SameCode g g') (hg : g.Numbered) : g.Shuffles s g' := by
  refine ⟨h.numbered hg, fun m around hsc => ?_, fun k _ => ?_⟩
  · rw [h.code]
    exact hsc
  · rw [h.code]

theorem shuffles_erase (hg : g.Numbered) (id : NodeId) : g.Shuffles s (g.erase id) := by
  have hcode := (code_erase g id).1
  refine ⟨hg.erase id, fun m around hsc => ?_, fun k _ => ?_⟩
  · rw [hcode]
    exact hsc.filter _
  · rw [hcode]
    exact total_filter_le _

theorem shuffles_eraseOrphan (hg : g.Numbered) (id : NodeId) : g.Shuffles s (g.eraseOrphan id) := by
  rcases eraseOrphan_cases g id with h | h
  · rw [h]
    exact shuffles_erase hg id
  · rw [h]
    exact (SameCode.refl g).shuffles hg

theorem change_eq_ok {f : Node → Node} (hg : g.Numbered)
    (h : (g.modify id f).setExit id exit = .ok g') :
    ∃ n, g.get? id = some n ∧ g'.Numbered ∧ g'.code = replaced id (f n).body g.code ∧
      g'.entry = g.entry := by
  obtain ⟨m, hm, _⟩ := setExit_eq_ok h
  rw [get?_modify_self, Option.map_eq_some_iff] at hm
  obtain ⟨n, hn, _⟩ := hm
  obtain ⟨hsame, hentry⟩ := sameCode_setExit h
  refine ⟨n, hn, hsame.numbered (hg.modify id f), ?_, hentry⟩
  rw [hsame.code, code_modify hg hn f]

theorem orphan_change {f : Node → Node} (h : (g.modify id f).setExit id exit = .ok g')
    (hf : ∀ n, (f n).exit = n.exit ∧ (f n).inputs = n.inputs) (hn : g.get? id = some n)
    (hj : j ∈ n.outputs) (hexit : j ∉ exit.outputs) (honly : ∀ p, g.Lists j p → p = id) :
    g'.Orphan j := by
  have hn' : (g.modify id f).get? id = some (f n) := by rw [get?_modify_self, hn]; rfl
  refine orphan_setExit h hn' ?_ hexit fun p hp => honly p ?_
  · unfold Node.outputs
    rw [(hf n).1]
    exact hj
  · exact (lists_modify fun n => (hf n).2).1 hp

theorem shuffles_change {f : Node → Node} (hg : g.Numbered)
    (h : (g.modify id f).setExit id exit = .ok g')
    (hf : ∀ n, g.get? id = some n → Body.marks (f n).body = Body.marks n.body) :
    g.Shuffles s g' := by
  obtain ⟨n, hn, hnum, hcode, _⟩ := change_eq_ok hg h
  have hmem := mem_code_of_get? hn
  refine ⟨hnum, fun m around hsc => ?_, fun k _ => ?_⟩
  · rw [hcode]
    exact hsc.replaced ((hsc _ hmem).congr (hf n hn)) id
  · have htotal := total_replaced (k := k) hg.nodup_code hmem (f n).body
    rw [Body.tally_congr (hf n hn)] at htotal
    rw [hcode]
    omega

/-! ### Searches -/

theorem ensures_node (g : Graph) (id : NodeId) : Ensures (g.node id) fun n => g.get? id = some n :=
  fun _ h => node_eq_ok_iff.1 h

theorem ensures_findNode {β : Type} {f : NodeId × Node → Except Fault (Option β)} {P : β → Prop}
    (hg : g.Numbered)
    (h : ∀ id n, g.get? id = some n → Ensures (f (id, n)) fun r => ∀ b, r = some b → P b) :
    Ensures (g.nodes.findSomeM? f) fun r => ∀ b, r = some b → P b :=
  .findSomeM? fun e he => h e.1 e.2 (hg.get?_of_mem he)

theorem ensures_firstArm? {p : NodeId → Arm → Except Fault Bool} {P : NodeId → Arm → Prop}
    (hg : g.Numbered) (h : ∀ id arm, Ensures (p id arm) fun r => r = true → P id arm) :
    Ensures (g.firstArm? p) fun r => ∀ e, r = some e →
      ∃ n, g.get? e.1 = some n ∧ e.2 ∈ n.exit.arms ∧ P e.1 e.2 := by
  refine ensures_findNode hg fun id n hn => ?_
  refine (Ensures.findM? fun arm _ => h id arm).bind fun r hr => .pure fun e he => ?_
  obtain ⟨arm, hsome, rfl⟩ := Option.map_eq_some_iff.1 he
  obtain ⟨hmem, hP⟩ := hr arm hsome
  exact ⟨n, hn, hmem, hP⟩

/-- A node that may be put into another one.  Without duplication, there is no other way into it. -/
structure Absorbable (g : Graph) (dup : Bool) (target pred : NodeId) : Prop where
  ne : target ≠ pred
  entry : target ≠ g.entry
  only : dup = false → ∀ p, g.Lists target p → p = pred

theorem ensures_canAbsorb (g : Graph) (dup : Bool) (target pred : NodeId) :
    Ensures (g.canAbsorb dup target pred) fun r => r = true → g.Absorbable dup target pred := by
  unfold canAbsorb
  split
  · exact .fails
  next hne =>
    rw [not_or] at hne
    refine (ensures_node g target).bind fun n hn => .pure fun h => ⟨hne.1, hne.2, fun hdup p hp => ?_⟩
    rw [hdup, Bool.or_false, beq_iff_eq] at h
    obtain ⟨m, hm, hp⟩ := hp
    cases hn.symm.trans hm
    have hp : p ∈ n.inputs.toList := hp
    rw [h] at hp
    exact mem_singleton.1 hp

end Graph

end Structurer
