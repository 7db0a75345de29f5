/-
**Parts of a graph that are left by a jump.**

A part of a graph is cut out to be solved by itself.  Its edges to the outside become code that parks
the stack, raises the flag of the target if it has one, and jumps to the header of a loop around the
part.  A walk of the part follows the walk of the graph until it leaves, and then the stack is parked
for the node where the walk is.
-/

import Structurer.Proofs.Behaviour
import Structurer.Proofs.OneShot
import Structurer.Proofs.Region
import Structurer.Proofs.Signals
import Structurer.Proofs.Solving

namespace Structurer

open Iteration Machine Chart List Exit

variable {M M' : NodeId → NodeId → Prop} {j id : NodeId} {ρ : NodeId → NodeId} {b b' : Block}
  {r : Result} {ls' known ls : Locals} {load : Body} {plain : Prop} {ctx₁ ctx₂ ctx : Context}
  {n : Node} {R : Regime} {K : LocalId → Prop} {G P : Chart} {w : World} {s t u : State}
  {J : StackType → NodeId → Body → Prop}

/-- A way out of a part of a graph: a jump to a loop, with flags that tell where control goes. -/
structure Passage where
  label : LoopLabel
  /-- Tells whether the loop comes around for the first time. -/
  first : LocalId
  /-- The flags of nodes behind the jump. -/
  flags : List (NodeId × LocalId)
  /-- The nodes behind the jump. -/
  Beyond : NodeId → Prop

namespace Passage

variable {c : Passage} {R' : Regime} {stack : StackType} {n : NodeId} {code : Body}
  {called : Option NodeId}

def raise (c : Passage) (n : NodeId) : Body :=
  match c.flags.lookup n with
  | some flag => [.i32Const 1, .localSet flag]
  | none => []

def Leaves (c : Passage) (R : Regime) (G : Chart) (ls : Locals) (stack : StackType) (n : NodeId)
    (code : Body) : Prop :=
  c.Beyond n ∧ ∃ parked store, R.Fits stack parked ∧
    (∀ b, G.block? n = some b → R.Fits parked b.inputStack) ∧ ls.Stores parked store ∧
      code = store ++ c.raise n ++ [.br c.label]

/-- The flags are variables of their own. -/
structure Signposted (c : Passage) (known ls : Locals) : Prop where
  first : known.Flag ls c.first
  flag : ∀ {e}, e ∈ c.flags → known.Flag ls e.2 ∧ e.2 ≠ c.first
  unique : ∀ {n m f}, c.flags.lookup n = some f → c.flags.lookup m = some f → n = m

/-- The loop has come around for the first time, and of the flags only that of the node called, if one
is called, is raised. -/
structure Raised (c : Passage) (called : Option NodeId) (t : State) : Prop where
  first : t.locals c.first = some (.i32 0)
  flag : ∀ {n f}, c.flags.lookup n = some f → t.locals f = some (.i32 (if called = some n then 1 else 0))

/-- The walk is behind the jump, with its stack parked and its flag raised. -/
structure Landed (c : Passage) (R : Regime) (K : LocalId → Prop) (G : Chart) (ls : Locals)
    (p : NodeId × State) (t : State) : Prop where
  beyond : c.Beyond p.1
  waits : Waits R K G ls p t
  raised : c.Raised (some p.1) t

theorem Raised.of_eq (S : c.Signposted known ls) (h : c.Raised called t)
    (hu : ∀ i, known.Flag ls i → u.locals i = t.locals i) : c.Raised called u where
  first := (hu _ S.first).trans h.first
  flag hf := (hu _ (S.flag (Graph.mem_of_lookup hf)).1).trans (h.flag hf)

theorem Raised.of_spares (S : c.Signposted known ls) (h : c.Raised called t)
    (hu : Spares known ls t u) : c.Raised called u :=
  h.of_eq S fun i hi => hu.unknown i hi.unknown

theorem Raised.withStack (h : c.Raised called t) (l : List Value) : c.Raised called (t.withStack l) :=
  ⟨h.first, h.flag⟩

theorem Raised.forget (S : c.Signposted known ls) (hK : ls.SlotsAre K) (h : c.Raised called t) :
    c.Raised called (t.forget K) := by
  refine h.of_eq S fun i hi => State.forget_locals_of_not fun hKi => ?_
  obtain ⟨v, hv, _⟩ := hi.integer
  exact hi.noSlot (hK.others hv hKi)

theorem Raised.call (S : c.Signposted known ls) (h : c.Raised none t) (n : NodeId) :
    ∃ u, exec w (c.raise n) t = some (.next u) ∧ c.Raised (some n) u ∧
      ∀ {R : Regime} {K : LocalId → Prop} {G : Chart} {p : NodeId × State},
        R.checker.locals = known → Waits R K G ls p t → Waits R K G ls p u := by
  unfold raise
  cases hn : c.flags.lookup n with
  | none =>
    refine ⟨t, exec_nil .., ⟨h.first, fun {m f} hf => ?_⟩, fun _ hw => hw⟩
    have hne : n ≠ m := by
      rintro rfl
      simp [hn] at hf
    simpa [hne] using h.flag hf
  | some flag =>
    obtain ⟨hflag, hne⟩ := S.flag (Graph.mem_of_lookup hn)
    refine ⟨t.set flag (.i32 1), ?_, ⟨?_, fun {m f} hf => ?_⟩, ?_⟩
    · simp [exec_cons, execInstruction, simple, State.push]
    · rw [State.set_locals_of_ne _ _ hne.symm, h.first]
    · by_cases hm : n = m
      · subst hm
        rw [hn] at hf
        cases hf
        simp
      · have hfm : f ≠ flag := fun heq => hm (S.unique hn (heq ▸ hf))
        rw [State.set_locals_of_ne _ _ hfm, h.flag hf]
        simp [hm]
    · rintro R K G p rfl hw
      exact hw.set hflag 1

theorem Leaves.run (L : Layout R K G ls) (S : c.Signposted R.checker.locals ls)
    (h : c.Leaves R G ls stack n code) (hg : Good R G (n, s)) (hle : Le (s.forget K) u)
    (hp : Proper ls u) (hu : c.Raised none u) :
    ∃ t, exec w code u = some (.jump c.label t) ∧ c.Landed R K G ls (n, s) t := by
  obtain ⟨hbeyond, parked, store, _, hfits, hstore, rfl⟩ := h
  obtain ⟨b, hb, _⟩ := hg.block
  have hparked : parked = b.inputStack := by
    have := hfits b hb
    rw [Regime.Fits, L.strict] at this
    exact this.eq_of_strict
  subst hparked
  obtain ⟨t, ht, hwaits, hothers⟩ := Waits.of_store (w := w) L.valid L.slots hg hb hstore hle hp
  have hraised : c.Raised none t := hu.of_eq S fun i hi => hothers i hi.noSlot
  obtain ⟨t', ht', hcalled, hkeep⟩ := hraised.call (w := w) S n
  refine ⟨t', ?_, hbeyond, hkeep rfl hwaits, hcalled⟩
  rw [append_assoc, exec_append, ht, andThen_next, exec_append, ht', andThen_next, exec_br]

theorem leads_raise (hflags : ∀ {n f}, c.flags.lookup n = some f →
    ∃ v, R.checker.locals.get? f = some v ∧ v.valueType = .i32) (n : NodeId) :
    R.Leads [] (c.raise n) [] := by
  unfold raise
  cases hn : c.flags.lookup n with
  | none => exact .nil []
  | some flag =>
    obtain ⟨v, hv, ht⟩ := hflags hn
    have hset : R.Leads ([] ++ [.i32]) [.localSet flag] [] := by
      rw [← ht]
      exact Regime.leads_localSet hv
    exact (Regime.leads_i32Const 1).append hset

theorem Leaves.stops (hR : Regime.Le R R') (hv : R'.checker.locals.Valid)
    (S : c.Signposted known R'.checker.locals) (h : c.Leaves R G R'.checker.locals stack n code) :
    (R'.inLoop c.label []).Stops stack code := by
  obtain ⟨_, parked, store, hfits, _, hstore, rfl⟩ := h
  have hfits' : R'.Fits stack parked := hfits.mono hR
  have hpark : (R'.inLoop c.label []).Leads stack store [] :=
    (Locals.Stores.leads (R := R'.inLoop c.label []) hv hstore).fits hfits' (.refl _ _)
  have hraise : (R'.inLoop c.label []).Leads [] (c.raise n) [] :=
    leads_raise (R := R'.inLoop c.label []) (fun hf => (S.flag (Graph.mem_of_lookup hf)).1.integer) n
  have hjump : (R'.inLoop c.label []).Stops [] [.br c.label] :=
    Regime.Fits.stops_br (.refl _ _) c.label
  exact (hpark.append hraise).stops hjump

end Passage

theorem Exit.Alike.of_mem {e e' : Exit} (h : Alike M e e') (hj : j ∈ e'.outputs) :
    ∃ n ∈ e.outputs, M n j := by
  cases h with
  | ret => exact absurd hj not_mem_nil
  | @seq n n' hn =>
    cases mem_singleton.1 hj
    exact ⟨n, mem_seq rfl, hn⟩
  | @branch n m n' m' hn hm =>
    rcases mem_pair.1 hj with rfl | rfl
    · exact ⟨n, mem_left rfl, hn⟩
    · exact ⟨m, mem_right rfl, hm⟩

theorem Exit.Alike.map {e e' : Exit} (h : Alike M e e')
    (hM : ∀ {n n'}, n ∈ e.outputs → M n n' → M' n (ρ n')) : Alike M' e (e'.map ρ) := by
  cases h with
  | ret => exact .ret
  | seq hn => exact .seq (hM (mem_seq rfl) hn)
  | branch hn hm => exact .branch (hM (mem_left rfl) hn) (hM (mem_right rfl) hm)

theorem Block.Typed.alike {R : Regime} {e : Exit} (h : b.Typed R) (he : Alike M b.exit e) :
    (b.withExit e).Typed R := by
  unfold Block.Typed at h ⊢
  rw [Block.withExit_exit]
  generalize b.exit = e₀ at h he
  cases he <;> exact h

namespace Chart

variable {T : Regime} {n n' : NodeId} {p q : NodeId × State} {s' t₁ : State} {c : Passage}
  {code store once : Body} {e : Exit}

/-- A block whose edges, some or all, have become code that leaves.  Edges that stay go to the blocks
that stand for their targets.  The last case is a block that stands for a node outside, and leaves at
once. -/
inductive Inlined (J : StackType → NodeId → Body → Prop) (M : NodeId → NodeId → Prop) (id : NodeId)
    (b : Block) : Block → Prop
  | kept {e : Exit} (he : Alike M b.exit e) : Inlined J M id b (b.withExit e)
  | seq {n : NodeId} {code : Body} (he : b.exit = .seq n) (hj : J b.outputStack n code) :
      Inlined J M id b ⟨b.body ++ code, b.inputStack, b.outputStack, .ret⟩
  | both {arm : Arm} {code code' : Body} (harm : arm ∈ b.exit.arms) (htrue : arm.isTrue = true)
      (hj : J b.outputStack arm.target code) (hj' : J b.outputStack arm.other code') :
      Inlined J M id b
        ⟨b.body ++ [.cond b.outputStack [] code code'], b.inputStack, b.outputStack, .ret⟩
  | side {arm : Arm} {code : Body} {n : NodeId} (harm : arm ∈ b.exit.arms)
      (hj : J b.outputStack arm.target code) (hn : M arm.other n) :
      Inlined J M id b ⟨arm.toward b.body ++ [.cond b.outputStack b.outputStack code []],
        b.inputStack, b.outputStack, .seq n⟩
  | gate {code : Body} {out : StackType} (hj : J b.inputStack id code) :
      Inlined J M id b ⟨code, b.inputStack, out, .ret⟩

/-- A part of a graph: each of its blocks stands for a block of the graph. -/
structure Carved (J : StackType → NodeId → Body → Prop) (M : NodeId → NodeId → Prop) (G P : Chart) :
    Prop where
  block : ∀ {i j b}, M i j → G.block? i = some b → ∃ b', P.block? j = some b' ∧ Inlined J M i b b'
  cover : ∀ {j}, P.Live j → ∃ i, M i j ∧ G.Live i

theorem Inlined.map (h : Inlined J M id b b')
    (hM : ∀ {n n'}, n ∈ b.exit.outputs → M n n' → M' n (ρ n')) :
    Inlined J M' id b (b'.withExit (b'.exit.map ρ)) := by
  cases h with
  | kept he => exact .kept (he.map hM)
  | seq he hj => exact .seq he hj
  | both harm htrue hj hj' => exact .both harm htrue hj hj'
  | side harm hj hn => exact .side harm hj (hM (Graph.mem_outputs_of_arm harm).2 hn)
  | gate hj => exact .gate hj

theorem Inlined.weaken (h : Inlined J M id b b')
    (hM : ∀ {n n'}, n ∈ b.exit.outputs → M n n' → M' n n') : Inlined J M' id b b' := by
  have hmap : b'.exit.map (fun n => n) = b'.exit := by cases b'.exit <;> rfl
  have hself : b'.withExit (b'.exit.map fun n => n) = b' := by rw [hmap]; rfl
  rw [← hself]
  exact h.map hM

/-! ### Types -/

theorem Inlined.inputStack (h : Inlined J M id b b') : b'.inputStack = b.inputStack := by
  cases h <;> rfl

theorem Inlined.of_mem (h : Inlined J M id b b') (hj : j ∈ b'.exit.outputs) :
    b'.outputStack = b.outputStack ∧ ∃ n ∈ b.exit.outputs, M n j := by
  cases h with
  | seq | both | gate => exact absurd hj (by simp [outputs])
  | kept he => exact ⟨rfl, he.of_mem hj⟩
  | @side arm code n harm _ hn =>
    cases mem_singleton.1 hj
    exact ⟨rfl, arm.other, (Graph.mem_outputs_of_arm harm).2, hn⟩

theorem Inlined.typed (h : Inlined J M id b b') (hb : b.Typed R)
    (hJ : ∀ stack n code, J stack n code → R.Stops stack code) : b'.Typed R := by
  cases h with
  | kept he => exact hb.alike he
  | seq he hj => exact (hb.seq he).stops (hJ _ _ _ hj)
  | @both arm code code' harm htrue hj hj' =>
    have hcond := typed_toward hb harm
    rw [Arm.toward, if_pos htrue] at hcond
    exact hcond.stops ((hJ _ _ _ hj).cond (hJ _ _ _ hj') [])
  | @side arm code n harm hj hn =>
    have hleave := (hJ _ _ _ hj).leads b.outputStack
    exact (typed_toward hb harm).append (hleave.cond (.nil _))
  | gate hj => exact hJ _ _ _ hj

theorem Carved.of_block (h : Carved J M G P) (hb' : P.block? j = some b') :
    ∃ i b, M i j ∧ G.block? i = some b ∧ Inlined J M i b b' := by
  obtain ⟨i, hM, b, hb⟩ := h.cover ⟨b', hb'⟩
  obtain ⟨b₁, hb₁, hin⟩ := h.block hM hb
  cases hb'.symm.trans hb₁
  exact ⟨i, b, hM, hb, hin⟩

theorem Carved.exists_targets (h : Carved J M G P) {k : NodeId} (ht : P.Targets j k) :
    ∃ i n, M i j ∧ M n k ∧ G.Targets i n := by
  obtain ⟨b', hb', hk⟩ := ht
  obtain ⟨i, b, hM, hb, hin⟩ := h.of_block hb'
  obtain ⟨_, n, hn, hMn⟩ := hin.of_mem hk
  exact ⟨i, n, hM, hMn, b, hb, hn⟩

theorem Carved.closed (h : Carved J M G P) (hC : G.Closed) (hentry : P.Live P.entry) : P.Closed where
  entry := hentry
  targets := by
    intro j k ht
    obtain ⟨i, n, _, hMn, hin⟩ := h.exists_targets ht
    obtain ⟨b, hb⟩ := hC.targets i n hin
    obtain ⟨b', hb', _⟩ := h.block hMn hb
    exact ⟨b', hb'⟩

theorem Carved.typed (h : Carved J M G P) (hT : G.Typed R) (hC : G.Closed)
    (hJ : ∀ stack n code, J stack n code → R.Stops stack code) : P.Typed R where
  blocks := by
    intro j b' hb'
    obtain ⟨i, b, _, hb, hin⟩ := h.of_block hb'
    exact hin.typed (hT.blocks hb) hJ
  edges := by
    intro j b' k bk hb' hk hbk
    obtain ⟨i, b, _, hb, hin⟩ := h.of_block hb'
    obtain ⟨hout, n, hn, hMn⟩ := hin.of_mem hk
    obtain ⟨bn, hbn⟩ := hC.targets i n ⟨b, hb, hn⟩
    obtain ⟨b₂, hb₂, hin₂⟩ := h.block hMn hbn
    cases hbk.symm.trans hb₂
    rw [hout, hin₂.inputStack]
    exact hT.edges hb hn hbn

theorem Inlined.nodup (h : Inlined J M id b b') (hb : b.exit.outputs.Nodup)
    (hM : ∀ {n n' k}, M n k → M n' k → n = n') : b'.exit.outputs.Nodup := by
  cases h with
  | seq | both | gate => exact nodup_nil
  | side => exact nodup_singleton _
  | @kept e he =>
    show e.outputs.Nodup
    generalize b.exit = e₀ at hb he
    cases he with
    | ret => exact nodup_nil
    | seq => exact nodup_singleton _
    | @branch n m n' m' hn hm =>
      have hne : n ≠ m := by simpa [outputs] using hb
      have hne' : n' ≠ m' := fun heq => hne (hM hn (heq ▸ hm))
      simpa [outputs] using hne'

theorem Carved.nodup (h : Carved J M G P) (hG : ∀ {i b}, G.block? i = some b → b.exit.outputs.Nodup)
    (hM : ∀ {n n' k}, M n k → M n' k → n = n') (hb' : P.block? j = some b') :
    b'.exit.outputs.Nodup := by
  obtain ⟨i, b, _, hb, hin⟩ := h.of_block hb'
  exact hin.nodup (hG hb) hM

/-! ### Walks -/

section Walks

/-- The walk of the part is where the walk of the graph is, with all flags down. -/
structure Inside (c : Passage) (R : Regime) (K : LocalId → Prop) (G : Chart) (ls : Locals)
    (M : NodeId → NodeId → Prop) (p q : NodeId × State) : Prop extends Beside R K G M p q where
  proper : Proper ls q.2
  lowered : c.Raised none q.2

variable {N : NodeId × State → State → Prop} {I : NodeId × State → NodeId × State → Prop}
  {Q : NodeId × State → State → Prop} {label : LoopLabel}

theorem along_end {P : NodeId × State → Result → Prop} (hr : ∀ t, r ≠ .next t) (h : P p r) :
    Along (G.step K w) I P p (follow e r) := by
  rw [follow_of_not_next e hr]
  exact h

theorem Meets.followed (hT : G.Typed R) (hC : G.Closed) (hl : R.Lacks label)
    (hg : Good R G p) {x : Option Result} {k : State → Option Result}
    (hx : G.Tracks K w N p x)
    (hk : ∀ a u, Good R G a → N a u →
      Meets (G.step K w) (Along (G.step K w) I (Departs (G.step K w) Q label)) a ((k u).map (follow e))) :
    Meets (G.step K w) (Along (G.step K w) I (Departs (G.step K w) Q label)) p
      ((andThen x k).map (follow e)) := by
  cases Meets.good hT hC hg hx with
  | stuck _ h => exact .stuck _ h
  | forever h => exact .forever h
  | @comes a r hs hr =>
    obtain ⟨ha, hr⟩ := hr
    refine .of_steps hs ?_
    cases r with
    | next u => exact hk a u ha hr
    | jump | returned | trapped | stuck =>
      exact .here (along_end (fun _ => Result.noConfusion) (departs_of_endsAs hT ha hl hr))

theorem meets_choosing (hT : G.Typed R) (hC : G.Closed) (hls : R.checker.locals.Extends ls)
    (hb : G.block? id = some b) {arm : Arm} (harm : arm ∈ b.exit.arms) (hg : Good R G (id, s))
    (hle : Le (s.forget K) t) (hp : Proper ls t) :
    G.Tracks K w (fun a u => Chooses R K G w arm a u ∧
      Spares R.checker.locals ls t u) (id, s) (exec w (arm.toward b.body) t) := by
  refine (meets_toward hT hC hb harm hg hle).through fun a u hu hrun => ?_
  have ht : HasTypes t.stack b.inputStack := hle.stack_eq ▸ hg.types hb
  exact ⟨hu, .of_leads hls (leads_toward hT hb harm) ht hp hrun⟩

theorem meets_leaving (L : Layout R K G ls) (S : c.Signposted R.checker.locals ls)
    {stack : StackType} (hj : c.Leaves R G ls stack n code) (hgo : Goes (G.step K w) p (n, t₁))
    (hg : Good R G (n, t₁)) (hle : Le (t₁.forget K) u) (hp : Proper ls u) (hu : c.Raised none u) :
    Meets (G.step K w) (Along (G.step K w) I (Departs (G.step K w) (c.Landed R K G ls) c.label)) p
      ((exec w code u).map (follow e)) := by
  obtain ⟨t, ht, hlanded⟩ := hj.run (w := w) L S hg hle hp hu
  rw [ht]
  exact .of_goes hgo (.here (along_end (fun _ => Result.noConfusion) (.jump hlanded)))

theorem along_staying (hM : M n n') (hgo : Goes (G.step K w) p (n, t₁)) (hg : Good R G (n, t₁))
    (hle : Le (t₁.forget K) u) (hp : Proper ls u) (hu : c.Raised none u)
    {P : NodeId × State → Result → Prop} :
    Along (G.step K w) (Inside c R K G ls M) P p (.inl (n', u)) :=
  ⟨(n, t₁), hgo, ⟨⟨hM, hg, hle⟩, hp, hu⟩⟩

theorem meets_inlined (L : Layout R K G ls) (S : c.Signposted R.checker.locals ls)
    (hl : R.Lacks c.label) (hb : G.block? id = some b) (hin : Inlined (c.Leaves R G ls) M id b b')
    (hg : Good R G (id, s)) (hle : Le (s.forget K) t) (hp : Proper ls t) (hlow : c.Raised none t) :
    Meets (G.step K w) (Along (G.step K w) (Inside c R K G ls M)
      (Departs (G.step K w) (c.Landed R K G ls) c.label)) (id, s)
      ((exec w b'.body t).map (follow b'.exit)) := by
  cases hin with
  | gate hj =>
    obtain ⟨u, hu, hlanded⟩ := hj.run (w := w) L S hg hle hp hlow
    rw [hu]
    exact .here (along_end (fun _ => Result.noConfusion) (.jump hlanded))
  | @kept e he =>
    show Meets _ _ _ ((exec w b.body t).map (follow e))
    rw [← append_nil b.body, exec_append]
    refine Meets.followed L.typed L.closed hl hg (meets_sparing L.typed L.known hb hg hle hp) ?_
    rintro a u - ⟨rfl, ⟨t₁, ht₁, hlt⟩, hspares⟩
    have hlow' : c.Raised none u := hlow.of_spares S hspares
    rw [exec_nil]
    refine .here ?_
    generalize he₀ : b.exit = e₀ at he
    cases he with
    | ret => exact absurd ht₁ (hg.ret L.typed hb he₀)
    | @seq n n' hn =>
      have hgo := goes_seq hb he₀ ht₁
      exact along_staying hn hgo (hg.goes L.typed L.closed hgo) hlt.forget_left hspares.proper hlow'
    | @branch n m n' m' hn hm =>
      obtain ⟨k, rest, hst, _, _⟩ := hg.branch L.typed hb he₀ ht₁
      have hgo := goes_branch hb he₀ ht₁ hst
      have hway : M (if k ≠ 0 then n else m) (if k ≠ 0 then n' else m') := by
        split
        · exact hn
        · exact hm
      have hst' : u.stack = .i32 k :: rest := by rw [hlt.stack_eq, hst]
      simp only [follow, hst']
      exact along_staying hway hgo (hg.goes L.typed L.closed hgo)
        (hlt.withStack rest).forget_left (hspares.proper.withStack rest) (hlow'.withStack rest)
  | @seq n code he hj =>
    simp only [exec_append]
    refine Meets.followed L.typed L.closed hl hg (meets_sparing L.typed L.known hb hg hle hp) ?_
    rintro a u - ⟨rfl, ⟨t₁, ht₁, hlt⟩, hspares⟩
    have hgo := goes_seq hb he ht₁
    exact meets_leaving L S hj hgo (hg.goes L.typed L.closed hgo) hlt.forget_left hspares.proper
      (hlow.of_spares S hspares)
  | @both arm code code' harm htrue hj hj' =>
    have htoward : arm.toward b.body = b.body := by rw [Arm.toward, if_pos htrue]
    have hchoice := meets_choosing (w := w) L.typed L.closed L.known hb harm hg hle hp
    rw [htoward] at hchoice
    simp only [exec_append]
    refine Meets.followed L.typed L.closed hl hg hchoice ?_
    rintro a u - ⟨⟨k, rest, hst, t₁, hgo, hgood, hlt⟩, hspares⟩
    have hproper := hspares.proper.withStack rest
    have hlow' := (hlow.of_spares S hspares).withStack rest
    rw [exec_cond hst]
    split at hgo
    next hk =>
      rw [if_pos hk] at hgood ⊢
      exact meets_leaving L S hj hgo hgood hlt hproper hlow'
    next hk =>
      rw [if_neg hk] at hgood ⊢
      exact meets_leaving L S hj' hgo hgood hlt hproper hlow'
  | @side arm code n harm hj hn =>
    simp only [exec_append]
    refine Meets.followed L.typed L.closed hl hg
      (meets_choosing L.typed L.closed L.known hb harm hg hle hp) ?_
    rintro a u - ⟨⟨k, rest, hst, t₁, hgo, hgood, hlt⟩, hspares⟩
    have hproper := hspares.proper.withStack rest
    have hlow' := (hlow.of_spares S hspares).withStack rest
    rw [exec_cond hst]
    split at hgo
    next hk =>
      rw [if_pos hk] at hgood ⊢
      exact meets_leaving L S hj hgo hgood hlt hproper hlow'
    next hk =>
      rw [if_neg hk] at hgood ⊢
      rw [exec_nil]
      exact .here (along_staying hn hgo hgood hlt hproper hlow')

/-- **A walk of the part goes as the walk of the graph does until it leaves.** -/
theorem Carved.meets_walk (h : Carved (c.Leaves R G ls) M G P) (L : Layout R K G ls)
    (S : c.Signposted R.checker.locals ls) (hl : R.Lacks c.label) (hpq : Inside c R K G ls M p q) :
    Meets (G.step K w) (Departs (G.step K w) (c.Landed R K G ls) c.label) p
      (P.walk K w q.1 q.2) := by
  refine Meets.iter (Q := Inside c R K G ls M) ?_ hpq
  rintro ⟨i, s⟩ ⟨j, s'⟩ hin
  obtain ⟨b, hb, _⟩ := hin.good.block
  obtain ⟨b', hb', hblock⟩ := h.block hin.blocks hb
  rw [step_of_block hb']
  exact meets_inlined L S hl hb hblock hin.good hin.le.forget_right (hin.proper.forget K)
    (hin.lowered.forget S L.slots)

theorem Inside.begin (hR : R.checker.locals.Extends ls) (hls : ls.Extends ls')
    (S : c.Signposted R.checker.locals ls) (hM : M id j) (hw : Waits R K G ls' (id, s) t)
    (hlow : c.Raised none t) :
    Inside c R K G ls M (id, s) (j, (t.withStack s.stack).restrict ls) where
  blocks := hM
  good := hw.good
  le := by
    refine ⟨(append_nil _).symm, hw.calls, fun i v hv => ?_⟩
    obtain ⟨hi, hv⟩ := State.forget_locals_eq_some_iff.1 hv
    obtain ⟨var, hvar, _⟩ := hw.good.proper i v hv
    rw [State.restrict_locals (hR.get hvar)]
    exact hw.locals hi hv
  proper := ((hw.proper.fitting_of_extends hls).proper_restrict :)
  lowered := by
    refine (hlow.withStack s.stack).of_eq S fun i hi => ?_
    obtain ⟨v, hv, _⟩ := hi.integer
    exact State.restrict_locals hv

theorem Inside.waits (hls : T.checker.locals = ls)
    (h : Inside c R K G ls M (id, s) (j, (t.withStack s.stack).restrict ls))
    (hb : G.block? id = some b) (hb' : P.block? j = some b') (hin : b'.inputStack = b.inputStack)
    (hw : Waits R K G ls' (id, s) t) :
    Waits T K P ls' (j, (t.withStack s.stack).restrict ls) t where
  good := ⟨⟨b', hb', hin ▸ hw.good.types hb⟩, hls ▸ h.proper⟩
  stack := hw.stack
  calls := rfl
  locals _ hv := (State.forget_locals_eq_some_iff.1 hv).2
  parks := by
    intro b₀ hb₀
    cases hb'.symm.trans hb₀
    rw [hin]
    exact hw.parks hb
  proper := hw.proper

theorem exists_of_walk (h : G.walk K w p.1 p.2 = some r) :
    ∃ a, Steps (G.step K w) p a ∧ G.step K w a = some (.inr r) := by
  obtain ⟨k, hk⟩ := iter_eq_some_iff.1 h
  -- by induction on the number of steps it takes
  induction k generalizing p with
  | zero => cases hk
  | succ k ih =>
    cases hstep : G.step K w p with
    | none =>
      rw [attempt_of_none hstep] at hk
      cases hk
    | some d =>
      cases d with
      | inl q =>
        rw [attempt_succ_of_inl hstep] at hk
        obtain ⟨a, hs, ha⟩ := ih (iter_eq_some_iff.2 ⟨k, hk⟩) hk
        exact ⟨a, .head hstep hs, ha⟩
      | inr r' =>
        rw [attempt_succ_of_inr hstep] at hk
        cases hk
        exact ⟨p, .refl, hstep⟩

theorem step_ne_next : G.step K w p ≠ some (.inr (.next t)) := by
  obtain ⟨i, s⟩ := p
  intro h
  cases hb : G.block? i with
  | none =>
    simp only [step, hb] at h
    cases h
  | some b =>
    rw [step_of_block hb, Option.map_eq_some_iff] at h
    obtain ⟨r, _, hr⟩ := h
    exact follow_ne_next hr

theorem meets_of_refines {y : Option Result} (h : Refines Le (G.walk K w p.1 p.2) y) :
    G.Tracks K w (fun _ _ => False) p y := by
  cases hx : G.walk K w p.1 p.2 with
  | none =>
    rw [hx] at h
    cases h
    exact .forever hx
  | some r =>
    rw [hx] at h
    cases h with
    | stuck y => exact .stuck y hx
    | @ends r r' hrel =>
      obtain ⟨a, hs, ha⟩ := exists_of_walk hx
      refine .comes hs ?_
      cases hrel with
      | next _ => exact step_ne_next ha
      | jump l hle => exact ⟨_, ha, .jump l hle⟩
      | returned hle => exact ⟨_, ha, .returned hle⟩
      | trapped hle => exact ⟨_, ha, .trapped hle⟩

theorem Carved.refines (h : Carved (fun _ _ _ => False) M G P) (hT : G.Typed R) (hC : G.Closed)
    (hM : M id j) (hg : Good R G (id, s)) (hle : Le (s.forget K) t) :
    Refines Le (G.walk K w id s) (P.walk K w j t) := by
  refine walk_refines (M := M) ?_ ⟨hM, hg, hle⟩
  rintro ⟨i, u⟩ ⟨k, u'⟩ hbeside
  obtain ⟨b, hb, _⟩ := hbeside.good.block
  obtain ⟨b', hb', hin⟩ := h.block hbeside.blocks hb
  cases hin with
  | kept he => exact met_alike hT hC hb hb' rfl he hbeside.good hbeside.le
  | seq _ hj | both _ _ hj _ | side _ hj _ | gate hj => exact hj.elim

/-- **A detour.**  The stack is parked and the flags are cleared; then the part runs until it leaves,
and the other code goes on where the walk is. -/
theorem meets_detour (L : Layout R K G ls) (S : c.Signposted R.checker.locals ls)
    (hl : R.Lacks c.label) (hb : G.block? id = some b)
    (hg : Good R G (id, s)) {otherwise : Body} (hstore : ls.Stores b.inputStack store)
    (honce : ∀ t, Waits R K G ls (id, s) t → c.Raised none t →
      Meets (G.step K w) (Departs (G.step K w) (c.Landed R K G known) c.label) (id, s)
      (exec w once t))
    (hother : ∀ a t, c.Landed R K G known a t → G.Tracks K w N a
      (exec w otherwise t))
    (hN : ∀ a t t', N a t → Le t t' → N a t') :
    G.Tracks K w N (id, s) (exec w (store ++
      LinearTree.clear (c.flags.map (·.2)) ++ oneShotLoop c.label c.first once otherwise)
      (s.forget K)) := by
  have hproper : Proper ls (s.forget K) := (hg.proper.mono L.known.get).forget K
  obtain ⟨t, ht, hwaits, _⟩ := Waits.of_store (w := w) L.valid L.slots hg hb hstore (.refl _) hproper
  have hflags : ∀ f ∈ c.flags.map (·.2), R.checker.locals.Flag ls f ∧ f ≠ c.first := by
    intro f hf
    obtain ⟨e, he, rfl⟩ := mem_map.1 hf
    exact S.flag he
  rw [exec_append, exec_append, ht, andThen_next, LinearTree.exec_clear, andThen_next]
  have hclear := hwaits.clear fun f hf => (hflags f hf).1
  have hlocals := LinearTree.locals_clear t (c.flags.map (·.2))
  generalize t.setAll ((c.flags.map (·.2)).map fun f => (f, .i32 0)) = u at hclear hlocals
  refine meets_oneShot L.typed L.closed hl hg hclear.stack
    (honce _ (hclear.set S.first 0) ⟨State.set_locals_self .., fun {n f} hf => ?_⟩)
    (fun a t₀ h => ⟨h.waits.stack, h.raised.first⟩) ?_
  · have hmem : f ∈ c.flags.map (·.2) := mem_map_of_mem (Graph.mem_of_lookup hf)
    rw [State.set_locals_of_ne _ _ (hflags f hmem).2, hlocals, if_pos hmem]
    rfl
  · intro a t₀ t hlanded hle
    exact (hother a t₀ hlanded).through_trans (exec_le w _ hle) hN

theorem meets_passed (L : Layout R K G ls) (S : c.Signposted R.checker.locals ls)
    (hl : R.Lacks c.label) (hflags : c.flags = []) (hls : known.Extends ls)
    (hb : G.block? id = some b) (hg : Good R G (id, s)) (hstore : ls.Stores b.inputStack store)
    (hload : ∀ {n b}, c.Beyond n → G.block? n = some b → ls.Loads b.inputStack load)
    (honce : ∀ t, Waits R K G ls (id, s) t → c.Raised none t →
      Meets (G.step K w) (Departs (G.step K w) (c.Landed R K G known) c.label) (id, s)
      (exec w once t)) :
    G.Tracks K w (fun a t => c.Beyond a.1 ∧ Good R G a ∧ Le (a.2.forget K) t)
      (id, s) (exec w (store ++ oneShotLoop c.label c.first once [] ++ load) (s.forget K)) := by
  have hdetour := meets_detour (w := w) (N := fun a t => ∃ t₀, c.Landed R K G known a t₀ ∧ Le t₀ t) L S hl hb hg hstore honce
    (fun a t hlanded => by rw [exec_nil]; exact .here ⟨t, hlanded, .refl t⟩)
    (fun a t t' ht hle => ht.imp fun t₀ ht₀ => ⟨ht₀.1, ht₀.2.trans hle⟩)
  have hcode : store ++ LinearTree.clear (c.flags.map (·.2)) ++ oneShotLoop c.label c.first once [] =
      store ++ oneShotLoop c.label c.first once [] := by
    simp [hflags, LinearTree.clear]
  rw [hcode] at hdetour
  rw [exec_append]
  refine hdetour.andThen ?_
  rintro ⟨i, u⟩ t ⟨t₀, ⟨hbeyond, hwaits, _⟩, hle⟩
  obtain ⟨b', hb', _⟩ := hwaits.good.block
  obtain ⟨hrun, hle₀⟩ := (hwaits.mono hls).load (w := w) hb' (hload hbeyond hb')
  have hload₀ : G.Tracks K w (fun a t => c.Beyond a.1 ∧ Good R G a ∧
      Le (a.2.forget K) t) (i, u) (exec w load t₀) := by
    rw [hrun]
    exact .here ⟨hbeyond, hwaits.good, hle₀⟩
  exact hload₀.through_trans (exec_le w load hle) fun a t t' ht hle => ⟨ht.1, ht.2.1, ht.2.2.trans hle⟩

end Walks

end Chart

theorem Solves.leads_once {label : LoopLabel} {part : Graph}
    (hsol : Solves plain (ctx₁.inside label) part n ctx₂) (hgrows : (ctx₂.outside label).Grows ctx)
    (hv : ctx.locals.Valid) (hb : part.chart.block? part.entry = some b)
    (hload : ctx.locals.Loads b.inputStack load) :
    ((ctx.regime plain).inLoop label []).Leads [] (load ++ n.body ++ [.unreachable]) [] := by
  have hgrows' : ctx₂.Grows (ctx.inside label) := hsol.grows.reenter hgrows
  have hfits : ((ctx.inside label).regime plain).Fits b.inputStack n.inputStack :=
    Regime.Fits.mono ((hsol.grows.trans hgrows').regime plain) (hsol.input hb).symm
  have hbody := (hsol.stops.mono (hgrows'.regime plain)).fits hfits
  rw [Context.regime_inside] at hbody
  have hload' : ((ctx.regime plain).inLoop label []).Leads [] load b.inputStack :=
    Locals.Loads.leads hv hload
  exact ((hload'.stops hbody).append fun _ => by simp [Body.plain_iff, Instruction.Plain]).leads []

theorem Chart.Carved.sound {g part : Graph} {c : Passage}
    (h : Carved (c.Leaves (ctx.regime plain) g.chart ctx₁.locals) M g.chart part.chart)
    (hf : ctx.Fine) (hs : g.Sound ctx plain) (hgrows : ctx.Grows ctx₁)
    (S : c.Signposted ctx.locals ctx₁.locals)
    (hl : (ctx.regime plain).Lacks c.label) (htidy : part.Tidy)
    (hentry : M g.entry part.entry) : part.Sound (ctx₁.inside c.label) plain := by
  have hle : Regime.Le (ctx₁.regime plain) ((ctx₁.regime plain).inLoop c.label []) :=
    Regime.le_inLoop (hgrows.lacks.2 hl) []
  obtain ⟨b, hb⟩ := hs.closed.entry
  obtain ⟨b', hb', _⟩ := h.block hentry hb
  refine ⟨⟨htidy, h.closed hs.closed ⟨b', hb'⟩⟩, ?_⟩
  rw [Context.regime_inside]
  refine h.typed ((hs.typed.mono (hgrows.regime plain)).mono hle) hs.closed ?_
  intro stack n code hcode
  exact hcode.stops (hgrows.regime plain) (hgrows.valid hf.valid) S

theorem Chart.Carved.sound_copy {g part : Graph}
    (h : Carved (fun _ _ _ => False) M g.chart part.chart) (hs : g.Sound ctx plain)
    (htidy : part.Tidy) {id : NodeId} (hid : g.chart.Live id) (hentry : M id part.entry) :
    part.Sound ctx plain := by
  obtain ⟨b, hb⟩ := hid
  obtain ⟨b', hb', _⟩ := h.block hentry hb
  exact ⟨⟨htidy, h.closed hs.closed ⟨b', hb'⟩⟩, h.typed hs.typed hs.closed nofun⟩

/-- **Whatever solves the part runs until the part is left.** -/
theorem Chart.Carved.meets_solved {g part : Graph} {c : Passage} {K : LocalId → Prop} {ls : Locals}
    {w : World} {s t : State}
    (h : Carved (c.Leaves (ctx.regime plain) g.chart ctx₁.locals) M g.chart part.chart)
    (L : Layout (ctx.regime plain) K g.chart ls) (hf : ctx.Fine) (hgrows : ctx.Grows ctx₁)
    (hls : ctx₁.locals.Extends ls) (hgrows' : ctx₂.locals.Extends ls)
    (S : c.Signposted ctx.locals ctx₁.locals) (hl : (ctx.regime plain).Lacks c.label)
    (hsol : Solves plain (ctx₁.inside c.label) part n ctx₂) (hplain : plain)
    (hsize : part.size ≤ 2 ^ 31) (hentry : M g.entry part.entry)
    (hb : g.chart.block? g.entry = some b) (hload : ls.Loads b.inputStack load)
    (hw : Waits (ctx.regime plain) K g.chart ls (g.entry, s) t) (hlow : c.Raised none t) :
    Meets (g.chart.step K w) (Departs (g.chart.step K w)
      (c.Landed (ctx.regime plain) K g.chart ctx₁.locals) c.label) (g.entry, s)
      (exec w (load ++ n.body ++ [.unreachable]) t) := by
  have hstrict : ctx₁.settings.strictReferences = true := by
    rw [hgrows.settings]
    exact L.strict
  have L₁ : Layout (ctx.regime plain) K g.chart ctx₁.locals :=
    ⟨L.typed, L.closed, L.strict, hgrows.locals, hgrows.valid hf.valid, .of_extends hls L.slots⟩
  have hinside := Inside.begin (R := ctx.regime plain) hgrows.locals hls S hentry hw hlow
  obtain ⟨b', hb', hin⟩ := h.block hentry hb
  have hwaits := hinside.waits (T := (ctx₁.inside c.label).regime plain) rfl hb hb' hin.inputStack hw
  have hrun := hsol.refines hplain hstrict hsize K (.of_extends hgrows' L.slots) w _ hwaits.good
  have hle : Le (((t.withStack s.stack).restrict ctx₁.locals).forget K) (t.withStack s.stack) :=
    le_forget.forget_left
  have hmeets := (h.meets_walk L₁ S hl hinside).departs_trans
    (hrun.le_trans (exec_le w n.body hle))
  rw [exec_append, exec_append, (hw.load (w := w) hb hload).1, andThen_next]
  exact hmeets.departs_andThen _

/-! ### Regions -/

namespace Graph

variable {region : List NodeId}

abbrev Named (region : List NodeId) (i j : NodeId) : Prop := i ∈ region ∧ j = renamed region i

theorem ranked_region (h : Carved J (Named region) G P) {rank : NodeId → Nat}
    (hrank : ∀ {p id}, p ∈ region → id ∈ region → G.Targets p id → rank p < rank id) :
    ∃ rank : NodeId → Nat, ∀ {p id}, P.Targets p id → rank p < rank id := by
  -- the rank of a node is that of the node it stands for
  refine ⟨fun j => ((region[j.serial]?).map rank).getD 0, fun {p id} ht => ?_⟩
  obtain ⟨i, n, ⟨hi, rfl⟩, ⟨hn, rfl⟩, hin⟩ := h.exists_targets ht
  have hold : ∀ {i}, i ∈ region → region[(renamed region i).serial]? = some i := by
    intro i hi
    have hlt : region.idxOf i < region.length := idxOf_lt_length_iff.2 hi
    simp [renamed, getElem?_eq_getElem hlt]
  simp only [hold hi, hold hn]
  exact hrank hi hn hin

theorem nodup_region (h : Carved J (Named region) G P)
    (hG : ∀ {i b}, G.block? i = some b → b.exit.outputs.Nodup) (hb : P.block? j = some b) :
    b.exit.outputs.Nodup := by
  refine h.nodup hG ?_ hb
  rintro n n' k ⟨hn, rfl⟩ ⟨_, hk⟩
  exact renamed_inj hn hk

theorem Parted.copied {g g₁ part rest : Graph} {entry : NodeId} (h : Parted g₁ region entry part rest)
    (hsame : ∀ {id}, id ∈ region → g₁.chart.block? id = g.chart.block? id)
    (hclosed : ∀ {p id}, p ∈ region → g.chart.Targets p id → id ∈ region) :
    Carved (fun _ _ _ => False) (Named region) g.chart part.chart where
  block := by
    rintro i j b ⟨hi, rfl⟩ hb
    refine ⟨_, by rw [h.part_block i hi, hsame hi, hb]; rfl, .kept ?_⟩
    have hself : Alike (fun n n' => n' = n) b.exit b.exit := alike_refl fun _ _ => rfl
    refine hself.map fun {n n'} hn hnn => ?_
    subst hnn
    exact ⟨hclosed hi ⟨b, hb, hn⟩, rfl⟩
  cover := by
    intro j hj
    obtain ⟨i, hi, rfl⟩ := h.exists_renamed hj
    obtain ⟨b, hb⟩ := h.live i hi
    exact ⟨i, ⟨hi, rfl⟩, b, (hsame hi).symm.trans hb⟩

end Graph

/-! ### Cutting the edges -/

open Fallible Engine

/-- A logic of work that succeeds: what it gives and in which state it ends. -/
structure Triples (m : Type → Type) [Monad m] [MonadLiftT (Except Fault) m] (σ : Type) where
  Ends : ∀ {α : Type}, m α → σ → (α → σ → Prop) → Prop
  pure : ∀ {α : Type} {a : α} {c : σ} {Q : α → σ → Prop}, Q a c → Ends (Pure.pure a) c Q
  lift : ∀ {α : Type} {x : Except Fault α} {P : α → Prop} {c : σ} {Q : α → σ → Prop}, Works x P →
    (∀ a, P a → Q a c) → Ends (liftM x) c Q
  bind : ∀ {α β : Type} {x : m α} {f : α → m β} {c : σ} {Q : α → σ → Prop} {P : β → σ → Prop},
    Ends x c Q → (∀ a c', Q a c' → Ends (f a) c' P) → Ends (x >>= f) c P

def Engine.triples : Triples EngineM Context where
  Ends := Succeeds
  pure h := Succeeds.pure h
  lift h hQ := (Succeeds.works h _).mono fun a _ ha => ha.1 ▸ hQ a ha.2
  bind hx hf := Succeeds.bind hx hf

abbrev Stays (leaving : NodeId → Bool) (n n' : NodeId) : Prop := n' = n ∧ leaving n = false

/-- A graph whose edges out of some nodes, as far as they leave, have become code. -/
structure Graph.Severed (J : StackType → NodeId → Body → Prop) (leaving : NodeId → Bool) (g : Graph)
    (nodes : List NodeId) (g' : Graph) : Prop where
  tidy : g'.Tidy
  entry : g'.chart.entry = g.chart.entry
  ids : g'.ids = g.ids
  serial : g'.nextSerial = g.nextSerial
  inside : ∀ {id b}, id ∈ nodes → g.chart.block? id = some b →
    ∃ b', g'.chart.block? id = some b' ∧ Inlined J (Stays leaving) id b b'
  outside : ∀ {id}, id ∉ nodes → g'.chart.block? id = g.chart.block? id

section Severing

variable {m : Type → Type} [Monad m] [MonadLiftT (Except Fault) m] {σ : Type} {T : Triples m σ}
  {r : σ → σ → Prop} {J' : StackType → NodeId → Body → Prop} {leaving : NodeId → Bool}
  {jump : NodeId → m Body} {g g₁ g₂ : Graph} {done nodes : List NodeId}

theorem Chart.Inlined.mono (h : Inlined J M id b b')
    (hJ : ∀ stack n code, J stack n code → J' stack n code) : Inlined J' M id b b' := by
  cases h with
  | kept he => exact .kept he
  | seq he hj => exact .seq he (hJ _ _ _ hj)
  | both harm htrue hj hj' => exact .both harm htrue (hJ _ _ _ hj) (hJ _ _ _ hj')
  | side harm hj hn => exact .side harm (hJ _ _ _ hj) hn
  | gate hj => exact .gate (hJ _ _ _ hj)

theorem Graph.Severed.mono (h : g.Severed J leaving nodes g₁)
    (hJ : ∀ stack n code, J stack n code → J' stack n code) : g.Severed J' leaving nodes g₁ where
  tidy := h.tidy
  entry := h.entry
  ids := h.ids
  serial := h.serial
  inside hid hb := (h.inside hid hb).imp fun _ hb' => ⟨hb'.1, hb'.2.mono hJ⟩
  outside := h.outside

theorem Graph.Severed.nothing (hg : g.Tidy) : g.Severed J leaving [] g :=
  ⟨hg, rfl, rfl, rfl, fun h => absurd h not_mem_nil, fun _ => rfl⟩

theorem Graph.Severed.change (h : g.Severed J leaving done g₁) (hb : g.chart.block? id = some b)
    (hid : id ∉ done) {body : Body} {exit : Exit}
    (hin : Inlined J (Stays leaving) id b ⟨body, b.inputStack, b.outputStack, exit⟩) :
    Works ((g₁.modify id fun n => { n with body }).setExit id exit)
      (g.Severed J leaving (done ++ [id])) := by
  have hb₁ : g₁.chart.block? id = some b := (h.outside hid).trans hb
  have hchange := h.tidy.change ⟨b, hb₁⟩ (F := fun b => { b with body }) (f := fun n => { n with body })
    {} exit
  refine hchange.mono fun g₂ hg₂ => ?_
  obtain ⟨htidy, hchart, hids, hserial⟩ := hg₂
  refine ⟨htidy, ?_, hids.trans h.ids, hserial.trans h.serial, fun {j b₀} hj hb₀ => ?_, fun {j} hj => ?_⟩
  · rw [hchart]
    exact h.entry
  · by_cases hji : j = id
    · subst hji
      cases hb.symm.trans hb₀
      exact ⟨_, by rw [hchart, Chart.update_self, hb₁]; rfl, hin⟩
    · rw [hchart, Chart.update_of_ne _ hji]
      have hdone : j ∈ done := (mem_append.1 hj).resolve_right (by simpa using hji)
      exact h.inside hdone hb₀
  · have hji : j ≠ id := fun heq => hj (by simp [heq])
    rw [hchart, Chart.update_of_ne _ hji]
    exact h.outside fun hdone => hj (mem_append_left _ hdone)

theorem Graph.Severed.keep (h : g.Severed J leaving done g₁) (hb : g.chart.block? id = some b)
    (hid : id ∉ done) (hstay : ∀ n ∈ b.exit.outputs, leaving n = false) :
    g.Severed J leaving (done ++ [id]) g₁ where
  tidy := h.tidy
  entry := h.entry
  ids := h.ids
  serial := h.serial
  inside := by
    intro j b₀ hj hb₀
    rcases mem_append.1 hj with hdone | hlast
    · exact h.inside hdone hb₀
    · cases mem_singleton.1 hlast
      cases hb.symm.trans hb₀
      exact ⟨b, (h.outside hid).trans hb, .kept (Chart.alike_refl fun n hn => ⟨rfl, hstay n hn⟩)⟩
  outside hj := h.outside fun hdone => hj (mem_append_left _ hdone)

/-- **The edges of a node that leave become code.** -/
theorem Graph.Severed.inlineExits {J : σ → StackType → NodeId → Body → Prop}
    (hrefl : ∀ c, r c c) (htrans : ∀ {c c' c''}, r c c' → r c' c'' → r c c'')
    (hJ : ∀ {c c' stack n code}, r c c' → J c stack n code → J c' stack n code) {c : σ}
    (h : g.Severed (J c) leaving done g₁) (hb : g.chart.block? id = some b) (hid : id ∉ done)
    (hjump : ∀ n ∈ b.exit.outputs, leaving n = true → ∀ c', r c c' →
      T.Ends (jump n) c' fun code c'' => r c' c'' ∧ J c'' b.outputStack n code) :
    T.Ends (inlineExits leaving jump g₁ id) c fun g₂ c' =>
      r c c' ∧ g.Severed (J c') leaving (done ++ [id]) g₂ := by
  have hchange : ∀ {c' : σ} {body : Body} {exit : Exit}, r c c' →
      Inlined (J c') (Stays leaving) id b ⟨body, b.inputStack, b.outputStack, exit⟩ →
      T.Ends (liftM ((g₁.modify id fun n => { n with body }).setExit id exit)) c' fun g₂ c' =>
        r c c' ∧ g.Severed (J c') leaving (done ++ [id]) g₂ := by
    intro c' body exit hle hin
    refine T.lift ((h.mono fun _ _ _ => hJ hle).change hb hid hin) fun g₂ hg₂ => ⟨hle, hg₂⟩
  refine T.bind (T.lift (Graph.works_node ((h.outside hid).trans hb)) (Q := fun n c' =>
    c' = c ∧ n.block = b) fun n hn => ⟨rfl, hn.2⟩) ?_
  rintro n _ ⟨rfl, rfl⟩
  have hkeep : (∀ out ∈ n.exit.outputs, leaving out = false) →
      T.Ends (Pure.pure g₁) _ fun g₂ c' => r _ c' ∧ g.Severed (J c') leaving (done ++ [id]) g₂ :=
    fun hstay => T.pure ⟨hrefl _, h.keep hb hid hstay⟩
  dsimp only
  cases he : n.exit with
  | ret => exact hkeep (by simp [he, outputs])
  | seq next =>
    dsimp only
    split
    next hl =>
      refine T.bind (hjump next (mem_seq he) hl _ (hrefl _)) fun code c' hcode => ?_
      exact hchange hcode.1 (.seq (b := n.block) he hcode.2)
    next hl => exact hkeep (by simp [he, outputs, hl])
  | branch t f =>
    have harm : ⟨t, f, true⟩ ∈ n.block.exit.arms := by simp [he, arms]
    have harm' : ⟨f, t, false⟩ ∈ n.block.exit.arms := by simp [he, arms]
    dsimp only
    split
    next ht hf =>
      refine T.bind (hjump t (mem_left he) ht _ (hrefl _)) fun code c' hcode => ?_
      refine T.bind (hjump f (mem_right he) hf _ hcode.1) fun code' c'' hcode' => ?_
      exact hchange (htrans hcode.1 hcode'.1) (.both harm rfl (hJ hcode'.1 hcode.2) hcode'.2)
    next ht hf =>
      refine T.bind (hjump t (mem_left he) ht _ (hrefl _)) fun code c' hcode => ?_
      exact hchange hcode.1 (.side harm hcode.2 ⟨rfl, hf⟩)
    next ht hf =>
      refine T.bind (hjump f (mem_right he) hf _ (hrefl _)) fun code c' hcode => ?_
      exact hchange hcode.1 (.side harm' hcode.2 ⟨rfl, ht⟩)
    next ht hf => exact hkeep (by simp [he, outputs, ht, hf])

theorem Graph.Severed.foldlM {J : σ → StackType → NodeId → Body → Prop}
    (hrefl : ∀ c, r c c) (htrans : ∀ {c c' c''}, r c c' → r c' c'' → r c c'')
    {cut : Graph → NodeId → m Graph} {c : σ}
    (step : ∀ {done g₁ id c'}, r c c' → id ∈ nodes → id ∉ done → g.Severed (J c') leaving done g₁ →
      T.Ends (cut g₁ id) c' fun g₂ c'' =>
        r c' c'' ∧ g.Severed (J c'') leaving (done ++ [id]) g₂)
    (hnd : nodes.Nodup) (hg : g.Tidy) :
    T.Ends (nodes.foldlM cut g) c fun g₂ c' => r c c' ∧ g.Severed (J c') leaving nodes g₂ := by
  have hrun : ∀ (rest done : List NodeId) (g₁ : Graph) (c' : σ), done ++ rest = nodes → r c c' →
      g.Severed (J c') leaving done g₁ →
        T.Ends (rest.foldlM cut g₁) c' fun g₂ c'' => r c c'' ∧ g.Severed (J c'') leaving nodes g₂ := by
    intro rest
    induction rest with
    | nil =>
      intro done g₁ c' hnodes hle hsev
      rw [append_nil] at hnodes
      subst hnodes
      exact T.pure ⟨hle, hsev⟩
    | cons id rest ih =>
      intro done g₁ c' hnodes hle hsev
      have hmem : id ∈ nodes := by simp [← hnodes]
      have hnot : id ∉ done := by
        rw [← hnodes] at hnd
        intro hdone
        exact disjoint_of_nodup_append hnd hdone mem_cons_self
      refine T.bind (step hle hmem hnot hsev) fun g₂ c'' hg₂ => ?_
      exact ih (done ++ [id]) g₂ c'' (by simpa using hnodes) (htrans hle hg₂.1) hg₂.2
  exact hrun nodes [] g c rfl (hrefl c) (.nothing hg)

end Severing

end Structurer
