/-
**The dispatch loop.**

Before each round of the loop, the walk waits in front of a block, and the selector holds the number of
that block's case.  The round runs the block, parks the stack for the next one and sets the selector,
so each round is a step of the walk.
-/

import Structurer.Proofs.Solving
import Structurer.Proofs.Waiting

namespace Structurer

open Engine Fallible Iteration Machine Chart List

variable {entry id : NodeId} {store : Body} {a p : NodeId × State} {bodies : List Body}
  {P : Node → Body → Prop} {nodes : List (NodeId × Node)} {ctx : Context} {g : Graph} {R : Regime}
  {K : LocalId → Prop} {w : World} {s t : State}

namespace Graph

theorem fingerprint_works (hg : g.Tidy) (hC : g.chart.Closed) (maxLen : Nat) :
    Works (g.fingerprint maxLen) fun e => e.2.Tidy ∧ e.2.chart = g.chart ∧ e.2.size = g.size := by
  refine (sortBreadthFirst_works hg hC).bind ?_
  rintro g' ⟨htidy, hchart, hsize⟩
  refine (Works.mapM ?_).bind fun _ _ => .pure ⟨htidy, hchart, hsize⟩
  rintro ⟨id, n⟩ hn
  have hb : g'.chart.block? id = some n.block :=
    block?_of_get? ((get?_eq_some_iff htidy.nodup).2 hn)
  rw [hchart] at hb
  refine (Works.mapM fun out hout => ?_).bind fun _ _ => .pure trivial
  obtain ⟨b', hb'⟩ := hC.targets id out ⟨_, hb, hout⟩
  rw [← hchart] at hb'
  exact (works_node hb').bind fun _ _ => .pure trivial

end Graph

namespace Dispatch

variable {ls ls' : Locals} {cases : List NodeId} {selector : LocalId} {label : LoopLabel} {b : Block}
  {code push : Body}

/-! ### Code -/

def number (cases : List NodeId) (id : NodeId) : Instruction := .i32Const (Int32.ofNat (cases.idxOf id))

def numberNext? (cases : List NodeId) : Exit → Option Instruction
  | .seq next => some (number cases next)
  | .branch ifTrue ifFalse => some (.cond [] [.i32] [number cases ifTrue] [number cases ifFalse])
  | .ret => none

theorem pushCase_eq_ok_iff {push : Instruction} :
    pushCase cases id = .ok push ↔ id ∈ cases ∧ push = number cases id := by
  rw [pushCase, bind_eq_ok_iff]
  constructor
  · rintro ⟨k, hk, h⟩
    cases h
    obtain ⟨hmem, rfl⟩ := Graph.positionOf_eq_ok_iff.1 hk
    exact ⟨hmem, rfl⟩
  · rintro ⟨hmem, rfl⟩
    exact ⟨_, Graph.positionOf_eq_ok_iff.2 ⟨hmem, rfl⟩, rfl⟩

theorem pushNext?_eq_ok_iff {e : Exit} {push : Option Instruction} :
    pushNext? cases e = .ok push ↔ (∀ id ∈ e.outputs, id ∈ cases) ∧ push = numberNext? cases e := by
  cases e <;> simp [pushNext?, bind_eq_ok_iff, pushCase_eq_ok_iff, numberNext?, Exit.outputs, pure,
    Except.pure, and_assoc, eq_comm (a := push)]

/-- The code of a case. -/
inductive CaseCode (ls : Locals) (cases : List NodeId) (selector : LocalId) (label : LoopLabel)
    (b : Block) : Body → Prop
  | last {load note : Body} (hload : ls.Loads b.inputStack load) (hnote : note.hasNoCode = true)
      (he : b.exit = .ret) : CaseCode ls cases selector label b (load ++ note ++ b.body ++ [.unreachable])
  | goesOn {load note store : Body} {push : Instruction} (hload : ls.Loads b.inputStack load)
      (hnote : note.hasNoCode = true) (hpush : numberNext? cases b.exit = some push)
      (hstore : ls.Stores b.outputStack store) :
      CaseCode ls cases selector label b
        (load ++ note ++ b.body ++ [push, .localSet selector] ++ store ++ [.br label])

theorem CaseCode.mono (h : ls.Extends ls') (hc : CaseCode ls cases selector label b code) :
    CaseCode ls' cases selector label b code := by
  cases hc with
  | last hload hnote he => exact .last (hload.mono h) hnote he
  | goesOn hload hnote hpush hstore => exact .goesOn (hload.mono h) hnote hpush (hstore.mono h)

theorem numberNext?_eq_none {e : Exit} (h : numberNext? cases e = none) : e = .ret := by
  cases e with
  | ret => rfl
  | seq | branch => cases h

theorem caseOf_spec (ctx : Context) (cases : List NodeId) (selector : LocalId)
    (label : LoopLabel) {n : Node} (hout : ∀ id ∈ n.exit.outputs, id ∈ cases) :
    Succeeds (caseOf cases selector label n) ctx fun code ctx' =>
      ctx.Grows ctx' ∧ CaseCode ctx'.locals cases selector label n.block code := by
  refine (loadStack_spec ctx n.inputStack).bind ?_
  rintro load ctx₁ ⟨hg₁, hload⟩
  refine (comment_spec ctx₁ _).bind ?_
  rintro note _ ⟨rfl, hnote⟩
  refine (Succeeds.works (.of_eq (pushNext?_eq_ok_iff.2 ⟨hout, rfl⟩) rfl) _).bind ?_
  rintro _ _ ⟨rfl, rfl⟩
  cases hpush : numberNext? cases n.exit with
  | none => exact .pure ⟨hg₁, .last hload hnote (numberNext?_eq_none hpush)⟩
  | some push =>
    refine (storeStack_spec _ n.outputStack).bind ?_
    rintro store ctx₂ ⟨hg₂, hstore⟩
    exact .pure ⟨hg₁.trans hg₂, .goesOn (hload.mono hg₂.locals) hnote hpush hstore⟩

/-- What comes before the loop: the entry runs, or its stack is parked. -/
inductive Prologue (ls : Locals) (cases : List NodeId) (selector : LocalId) (entry : NodeId)
    (b : Block) : Body → Prop
  | runs {note store : Body} {next : NodeId} (hnote : note.hasNoCode = true) (he : b.exit = .seq next)
      (hstore : ls.Stores b.outputStack store) :
      Prologue ls cases selector entry b
        (note ++ b.body ++ [number cases next, .localSet selector] ++ store)
  | parks {store : Body} (hstore : ls.Stores b.inputStack store)
      (hcase : (∃ next, b.exit = .seq next) → cases.contains entry = true) :
      Prologue ls cases selector entry b (store ++ [number cases entry, .localSet selector])

theorem Prologue.mono (h : ls.Extends ls') (hc : Prologue ls cases selector entry b code) :
    Prologue ls' cases selector entry b code := by
  cases hc with
  | runs hnote he hstore => exact .runs hnote he (hstore.mono h)
  | parks hstore hcase => exact .parks (hstore.mono h) hcase

theorem prologue_spec (ctx : Context) (cases : List NodeId) (selector : LocalId) (entry : NodeId)
    {n : Node} (hout : ∀ id ∈ n.exit.outputs, id ∈ cases)
    (hentry : ¬ (∃ next, n.exit = .seq next) → entry ∈ cases) :
    Succeeds (prologue cases selector entry n) ctx fun code ctx' =>
      ctx.Grows ctx' ∧ Prologue ctx'.locals cases selector entry n.block code := by
  unfold prologue
  split
  next next he _ =>
    refine (comment_spec ctx _).bind ?_
    rintro note _ ⟨rfl, hnote⟩
    have hpush := pushCase_eq_ok_iff.2 ⟨hout next (Exit.mem_seq he), rfl⟩
    refine (Succeeds.works (.of_eq hpush rfl) _).bind ?_
    rintro _ _ ⟨rfl, rfl⟩
    refine (storeStack_spec _ n.outputStack).bind ?_
    rintro store ctx₁ ⟨hg, hstore⟩
    exact .pure ⟨hg, .runs hnote he hstore⟩
  next hne =>
    refine (storeStack_spec ctx n.inputStack).bind ?_
    rintro store ctx₁ ⟨hg, hstore⟩
    have hcase : (∃ next, n.exit = .seq next) → cases.contains entry = true := by
      rintro ⟨next, he⟩
      by_contra hcase
      exact hne next he (by simpa using hcase)
    have hmem : entry ∈ cases := by
      by_cases hseq : ∃ next, n.exit = .seq next
      · simpa using hcase hseq
      · exact hentry hseq
    refine (Succeeds.works (.of_eq (pushCase_eq_ok_iff.2 ⟨hmem, rfl⟩) rfl) _).bind ?_
    rintro _ _ ⟨rfl, rfl⟩
    exact .pure ⟨hg, .parks hstore hcase⟩

/-! ### Types -/

theorem leads_pushNext (hb : b.Typed R) {push : Instruction} (h : numberNext? cases b.exit = some push) :
    R.Leads b.inputStack (b.body ++ [push]) (b.outputStack ++ [.i32]) := by
  cases he : b.exit with
  | ret =>
    rw [he] at h
    cases h
  | seq n =>
    rw [he] at h
    cases h
    exact (hb.seq he).append (Regime.leads_i32Const _)
  | branch n m =>
    rw [he] at h
    cases h
    have hnumber : ∀ i, R.Leads [] [number cases i] [.i32] := fun i => Regime.leads_i32Const _
    have hcond := (hnumber n).cond_above (hnumber m) b.outputStack
    rw [append_nil] at hcond
    exact (hb.branch he).append hcond

section

variable (hv : R.checker.locals.Valid)
  (hsel : ∃ v, R.checker.locals.get? selector = some v ∧ v.valueType = .i32)

include hv hsel

theorem leads_select {stack : StackType} (hstore : R.checker.locals.Stores stack store) :
    R.Leads (stack ++ [.i32]) ([.localSet selector] ++ store) [] := by
  obtain ⟨v, hget, htype⟩ := hsel
  have hset : R.Leads (stack ++ [v.valueType]) [.localSet selector] stack := Regime.leads_localSet hget
  rw [htype] at hset
  exact hset.append (hstore.leads hv)

theorem CaseCode.stops (hb : b.Typed (R.inLoop label []))
    (h : CaseCode R.checker.locals cases selector label b code) :
    (R.inLoop label []).Stops [] code := by
  cases h with
  | last hload hnote he =>
    have hbegin := (hload.leads (R := R.inLoop label []) hv).append (Regime.leads_comments hnote)
    exact (hbegin.stops (hb.ret he)).append fun _ => ⟨trivial, trivial⟩
  | @goesOn load note store push hload hnote hpush hstore =>
    have hbegin := (hload.leads (R := R.inLoop label []) hv).append (Regime.leads_comments hnote)
    have hnext := hbegin.append (leads_pushNext hb hpush)
    have hselect := leads_select (R := R.inLoop label []) hv hsel hstore
    have hback : (R.inLoop label []).Stops [] [.br label] := Regime.Fits.stops_br (.refl _ _) label
    have := (hnext.append hselect).stops hback
    simpa [append_assoc] using this

theorem Prologue.leads (hb : b.Typed R) (h : Prologue R.checker.locals cases selector entry b code) :
    R.Leads b.inputStack code [] := by
  cases h with
  | @runs note store next hnote he hstore =>
    have hpush : numberNext? cases b.exit = some (number cases next) := by rw [he]; rfl
    have hbegin : R.Leads b.inputStack note b.inputStack := Regime.leads_comments hnote
    have hnext := hbegin.append (leads_pushNext hb hpush)
    have := hnext.append (leads_select hv hsel hstore)
    simpa [append_assoc] using this
  | @parks store hstore hcase =>
    obtain ⟨v, hget, htype⟩ := hsel
    have hset : R.Leads ([] ++ [v.valueType]) [.localSet selector] [] := Regime.leads_localSet hget
    rw [htype] at hset
    have hpush : R.Leads [] [number cases entry] [.i32] := Regime.leads_i32Const _
    exact (hstore.leads hv).append (hpush.append hset)

end

/-! ### Rounds -/

section Rounds

variable {G : Chart} {n : NodeId} {u t₁ : State}

/-- Before each round the walk waits in front of a block, and the selector holds the number of its
case. -/
structure AtSwitch (R : Regime) (K : LocalId → Prop) (G : Chart) (ls : Locals) (cases : List NodeId)
    (selector : LocalId) (p : NodeId × State) (t : State) : Prop where
  waits : Waits R K G ls p t
  mem : p.1 ∈ cases
  selected : t.locals selector = some (.i32 (Int32.ofNat (cases.idxOf p.1)))

/-- The walk is about to go on to a block whose number is on the stack. -/
structure Numbered (R : Regime) (K : LocalId → Prop) (G : Chart) (w : World) (ls : Locals)
    (cases : List NodeId) (b : Block) (a : NodeId × State) (n : NodeId) (t₁ u : State) : Prop where
  goes : Goes (G.step K w) a (n, t₁)
  good : Good R G (n, t₁)
  target : n ∈ b.exit.outputs
  stack : u.stack = .i32 (Int32.ofNat (cases.idxOf n)) :: t₁.stack
  le : Le (t₁.forget K) (u.withStack t₁.stack)
  proper : Proper ls u

theorem meets_pushNext (L : Layout R K G ls) (hb : G.block? id = some b) {push : Instruction}
    (hpush : numberNext? cases b.exit = some push) (hg : Good R G (id, s)) (hle : Le (s.forget K) t)
    (hp : Proper ls t) :
    G.Tracks K w (fun a u => ∃ n t₁, Numbered R K G w ls cases b a n t₁ u)
      (id, s) (exec w (b.body ++ [push]) t) := by
  rw [exec_append]
  refine Meets.andThen (meets_sparing L.typed L.known hb hg hle hp) ?_
  rintro _ u ⟨rfl, ⟨t₁, ht₁, hlu⟩, hspares⟩
  cases he : b.exit with
  | ret =>
    rw [he] at hpush
    cases hpush
  | seq n =>
    rw [he] at hpush
    cases hpush
    have hgo := goes_seq hb he ht₁
    rw [exec_singleton]
    simp only [number, execInstruction, simple]
    refine .here ⟨n, t₁, hgo, hg.goes L.typed L.closed hgo, Exit.mem_seq he, ?_, ?_, hspares.proper⟩
    · simp [State.push, hlu.stack_eq]
    · have hself : (u.push (.i32 (Int32.ofNat (cases.idxOf n)))).withStack t₁.stack = u := by
        rw [← hlu.stack_eq]
        rfl
      rw [hself]
      exact hlu.forget_left
  | branch n m =>
    rw [he] at hpush
    cases hpush
    obtain ⟨c, rest, hst, _, _⟩ := hg.branch L.typed hb he ht₁
    have hgo := goes_branch hb he ht₁ hst
    have hst' : u.stack = .i32 c :: rest := by rw [hlu.stack_eq, hst]
    have hmem : (if c ≠ 0 then n else m) ∈ b.exit.outputs := by
      split
      · exact Exit.mem_left he
      · exact Exit.mem_right he
    have hcode : exec w [.cond [] [.i32] [number cases n] [number cases m]] u =
        some (.next ((u.withStack rest).push
          (.i32 (Int32.ofNat (cases.idxOf (if c ≠ 0 then n else m)))))) := by
      rw [exec_cond hst']
      split <;> simp only [exec_singleton, number, execInstruction, simple]
    rw [hcode]
    exact .here ⟨_, t₁.withStack rest, hgo, hg.goes L.typed L.closed hgo, hmem, rfl,
      (hlu.withStack rest).forget_left, hspares.proper⟩

theorem Numbered.select (L : Layout R K G ls) (hsel : R.checker.locals.Flag ls selector)
    (hcases : ∀ {i n}, G.Targets i n → n ∈ cases) (hb : G.block? id = some b)
    (h : Numbered R K G w ls cases b a n t₁ u) (hstore : ls.Stores b.outputStack store) :
    ∃ t, exec w ([.localSet selector] ++ store) u = some (.next t) ∧
      AtSwitch R K G ls cases selector (n, t₁) t := by
  obtain ⟨bn, hbn⟩ := L.closed.targets id n ⟨b, hb, h.target⟩
  have hset : exec w [.localSet selector] u = some (.next ((u.withStack t₁.stack).set selector
      (.i32 (Int32.ofNat (cases.idxOf n))))) := by
    rw [exec_singleton]
    simp only [execInstruction, simple, h.stack, assign_any]
  rw [L.outputStack_eq hb h.target hbn] at hstore
  have hnone : (t₁.forget K).locals selector = none := (h.good.proper.forget K).unknown hsel.unknown
  obtain ⟨t, ht, hwaits, hothers⟩ := Waits.of_store (w := w) L.valid L.slots h.good hbn hstore
    (h.le.set_right hnone) ((h.proper.withStack _).setFlag hsel _)
  refine ⟨t, ?_, hwaits, hcases ⟨b, hb, h.target⟩, ?_⟩
  · rw [exec_append, hset, andThen_next, ht]
  · rw [hothers _ hsel.noSlot, State.set_locals_self]

theorem meets_case (L : Layout R K G ls) (hsel : R.checker.locals.Flag ls selector)
    (hcases : ∀ {i n}, G.Targets i n → n ∈ cases) (hl : R.Lacks label)
    (hb : G.block? id = some b) (hcode : CaseCode ls cases selector label b code)
    (h : AtSwitch R K G ls cases selector (id, s) t) :
    Meets (G.step K w) (Turn (G.step K w) (AtSwitch R K G ls cases selector) (fun _ _ => False) label 0)
      (id, s) (exec w code t) := by
  have hg := h.waits.good
  cases hcode with
  | @last load note hload hnote he =>
    obtain ⟨hrun, hle⟩ := h.waits.load (w := w) hb hload
    rw [exec_append, exec_append, exec_append, hrun, andThen_next, exec_comments w hnote, andThen_next]
    refine Meets.andThen_turn L.typed L.closed hg hl
      (meets_ret L.typed hb he hg hle fun _ _ => False) ?_
    exact fun _ _ _ hfalse => hfalse.elim
  | @goesOn load note store push hload hnote hpush hstore =>
    obtain ⟨hrun, hle⟩ := h.waits.load (w := w) hb hload
    have hrow : load ++ note ++ b.body ++ [push, .localSet selector] ++ store ++ [.br label] =
        load ++ (note ++ ((b.body ++ [push]) ++ (([.localSet selector] ++ store) ++ [.br label]))) := by
      simp
    rw [hrow, exec_append, hrun, andThen_next, exec_append, exec_comments w hnote, andThen_next,
      exec_append]
    refine Meets.andThen_turn L.typed L.closed hg hl
      (meets_pushNext L hb hpush hg hle (h.waits.proper.withStack _)) ?_
    rintro a u _ ⟨n, t₁, hnum⟩
    obtain ⟨t₂, ht₂, hat⟩ := hnum.select L hsel hcases hb hstore
    rw [exec_append, ht₂, andThen_next, exec_br]
    have hself : t₂.withStack [] = t₂ := by
      have := t₂.withStack_self
      rwa [hat.waits.stack] at this
    have hround : endRound label 0 [] (.jump label t₂) = .inl t₂ := by
      simp [endRound, hself]
    refine .here ?_
    rw [Turn, hround]
    exact ⟨_, hnum.goes, hat⟩

/-! ### The loop -/

theorem exec_switch {k : Nat} (hk : k < 2 ^ 31) (hcode : bodies[k]? = some code)
    (hs : s.locals selector = some (.i32 (Int32.ofNat k))) :
    exec w [.switch selector bodies] s = exec w code s := by
  have hcase : ∀ {bodies : List Body} {k : Nat}, bodies[k]? = some code →
      execCase w bodies k s = exec w code s := by
    intro bodies k h
    induction bodies generalizing k with
    | nil => cases h
    | cons b bs ih =>
      cases k with
      | zero =>
        cases h
        simp only [execCase]
      | succ k =>
        simp only [execCase]
        exact ih h
  have hint : (Int32.ofNat k).toInt = k := Int32.toInt_ofNat_of_lt hk
  have hpos : 0 ≤ Int32.ofNat k := by
    rw [Int32.le_iff_toInt_le, hint]
    exact Int.natCast_nonneg k
  rw [exec_singleton]
  simp only [execInstruction, hs, if_pos hpos, hint, Int.toNat_natCast]
  exact hcase hcode

def HasCases (G : Chart) (ls : Locals) (cases : List NodeId) (selector : LocalId) (label : LoopLabel)
    (bodies : List Body) : Prop :=
  ∀ {id}, id ∈ cases → ∃ b code, G.block? id = some b ∧
    bodies[cases.idxOf id]? = some code ∧ CaseCode ls cases selector label b code

theorem meets_prologue (L : Layout R K G ls) (hsel : R.checker.locals.Flag ls selector)
    (hcases : ∀ {i n}, G.Targets i n → n ∈ cases) (hb : G.block? id = some b)
    (hcode : Prologue ls cases selector id b code)
    (hmem : ¬ (∃ next, b.exit = .seq next) → id ∈ cases) (hg : Good R G (id, s)) :
    G.Tracks K w (fun a t =>
      ∃ a', Steps (G.step K w) a a' ∧ AtSwitch R K G ls cases selector a' t) (id, s)
      (exec w code (s.forget K)) := by
  have hp : Proper ls (s.forget K) := (hg.proper.forget K).mono L.known.get
  cases hcode with
  | @runs note store next hnote he hstore =>
    have hpush : numberNext? cases b.exit = some (number cases next) := by rw [he]; rfl
    have hrow : note ++ b.body ++ [number cases next, .localSet selector] ++ store =
        note ++ ((b.body ++ [number cases next]) ++ ([.localSet selector] ++ store)) := by
      simp
    rw [hrow, exec_append, exec_comments w hnote, andThen_next, exec_append]
    refine Meets.andThen (meets_pushNext L hb hpush hg (.refl _) hp) ?_
    rintro a u ⟨n, t₁, hnum⟩
    obtain ⟨t₂, ht₂, hat⟩ := hnum.select L hsel hcases hb hstore
    rw [ht₂]
    exact .here ⟨_, .single hnum.goes, hat⟩
  | @parks store hstore hcase =>
    obtain ⟨t, ht, hwaits, _⟩ := Waits.of_store (w := w) L.valid L.slots hg hb hstore (.refl _) hp
    have hset : exec w [number cases id, .localSet selector] t =
        some (.next (t.set selector (.i32 (Int32.ofNat (cases.idxOf id))))) := by
      simp [exec_cons, number, execInstruction, simple, State.push]
    rw [exec_append, ht, andThen_next, hset]
    refine .here ⟨_, .refl, hwaits.set hsel _, ?_, State.set_locals_self ..⟩
    by_cases hseq : ∃ next, b.exit = .seq next
    · simpa using hcase hseq
    · exact hmem hseq

theorem meets_switch (L : Layout R K G ls) (hsel : R.checker.locals.Flag ls selector)
    (hcases : ∀ {i n}, G.Targets i n → n ∈ cases) (hl : R.Lacks label)
    (hlen : cases.length ≤ 2 ^ 31) (hbodies : HasCases G ls cases selector label bodies)
    (h : AtSwitch R K G ls cases selector p t) :
    Meets (G.step K w) (Turn (G.step K w) (AtSwitch R K G ls cases selector) (fun _ _ => False) label 0)
      p (exec w [.switch selector bodies] t) := by
  obtain ⟨i, s⟩ := p
  obtain ⟨bi, code', hbi, hcode', hcase⟩ := hbodies h.mem
  have hlt : cases.idxOf i < 2 ^ 31 := Nat.lt_of_lt_of_le (idxOf_lt_length_iff.2 h.mem) hlen
  rw [exec_switch hlt hcode' h.selected]
  exact meets_case L hsel hcases hl hbi hcase h

end Rounds

/-! ### The node -/

theorem exists_case (h : List.Forall₂ (fun e => P e.2) nodes bodies) (hid : id ∈ nodes.map (·.1)) :
    ∃ n code, (id, n) ∈ nodes ∧ bodies[(nodes.map (·.1)).idxOf id]? = some code ∧ P n code := by
  induction h with
  | nil => cases hid
  | @cons e code nodes bodies he _ ih =>
    obtain ⟨i, n⟩ := e
    by_cases hi : i = id
    · subst hi
      exact ⟨n, code, .head _, by simp, he⟩
    · rw [map_cons, mem_cons] at hid
      obtain ⟨n', code', hmem, hget, hP⟩ := ih (hid.resolve_left fun h => hi h.symm)
      refine ⟨n', code', .tail _ hmem, ?_, hP⟩
      rw [map_cons, idxOf_cons_ne _ hi, getElem?_cons_succ, hget]

theorem exists_node (h : List.Forall₂ (fun e => P e.2) nodes bodies) {body : Body}
    (hbody : body ∈ bodies) : ∃ e ∈ nodes, P e.2 body := by
  induction h with
  | nil => cases hbody
  | @cons e code nodes bodies he _ ih =>
    rcases mem_cons.1 hbody with rfl | hbody
    · exact ⟨e, .head _, he⟩
    · obtain ⟨e', hmem, hP⟩ := ih hbody
      exact ⟨e', .tail _ hmem, hP⟩

theorem stops_dispatch {R : Regime} (hv : R.checker.locals.Valid)
    (hsel : ∃ v, R.checker.locals.get? selector = some v ∧ v.valueType = .i32)
    (hl : R.Lacks label) (hb : b.Typed R)
    (hcode : Prologue R.checker.locals cases selector entry b code)
    (hbodies : ∀ body ∈ bodies, ∃ n : Node, n.block.Typed R ∧
      CaseCode R.checker.locals cases selector label n.block body) :
    R.Stops b.inputStack (code ++ [.loop label [] [] [.switch selector bodies], .unreachable]) := by
  have hswitch : (R.inLoop label []).Stops [] [.switch selector bodies] := by
    obtain ⟨v, hget, htype⟩ := hsel
    refine Regime.Stops.switch (R := R.inLoop label []) hget htype fun body hbody => ?_
    obtain ⟨n, hn, hcase⟩ := hbodies body hbody
    exact hcase.stops hv ⟨v, hget, htype⟩ (hn.mono (Regime.le_inLoop hl []))
  exact (hcode.leads hv hsel hb).stops ((hswitch.loop []).append fun _ => ⟨trivial, trivial⟩)

def caseNodes (g : Graph) (n : Node) : List (NodeId × Node) :=
  g.nodes.filter fun e => !(n.exit.isSeq && n.inputs.toList.isEmpty && e.1 = g.entry)

section Cases

variable {n : Node}

theorem mem_cases_iff : id ∈ (caseNodes g n).map (·.1) ↔
    g.chart.Live id ∧ ¬ ((n.exit.isSeq && n.inputs.toList.isEmpty) = true ∧ id = g.entry) := by
  rw [caseNodes, Graph.live_iff_mem, Graph.ids, mem_map, mem_map]
  constructor
  · rintro ⟨e, he, rfl⟩
    obtain ⟨hmem, hkeep⟩ := mem_filter.1 he
    exact ⟨⟨e, hmem, rfl⟩, by simpa [Classical.or_iff_not_imp_left] using hkeep⟩
  · rintro ⟨⟨e, hmem, rfl⟩, hkeep⟩
    exact ⟨e, mem_filter.2 ⟨hmem, by simpa [Classical.or_iff_not_imp_left] using hkeep⟩, rfl⟩

theorem block?_of_mem_caseNodes (hg : g.Tidy) :
    ∀ e ∈ caseNodes g n, g.chart.block? e.1 = some e.2.block := fun _ he =>
  Graph.block?_of_get? ((Graph.get?_eq_some_iff hg.nodup).2 (mem_filter.1 he).1)

theorem mem_cases_of_targets (hg : g.Tidy) (hC : g.chart.Closed) (hn : g.get? g.entry = some n)
    {i : NodeId} (h : g.chart.Targets i id) : id ∈ (caseNodes g n).map (·.1) := by
  refine mem_cases_iff.2 ⟨hC.targets i id h, ?_⟩
  rintro ⟨hfirst, rfl⟩
  have hempty : n.inputs.toList = [] := by
    simp only [Bool.and_eq_true, List.isEmpty_iff] at hfirst
    exact hfirst.2
  have hmem : i ∈ n.inputs.toList := (hg.mem_inputs_iff hn).2 h
  rw [hempty] at hmem
  cases hmem

theorem entry_mem_cases (hC : g.chart.Closed) (hne : ¬ ∃ next, n.exit = .seq next) :
    g.entry ∈ (caseNodes g n).map (·.1) := by
  refine mem_cases_iff.2 ⟨hC.entry, ?_⟩
  rintro ⟨hfirst, _⟩
  simp only [Bool.and_eq_true] at hfirst
  cases he : n.exit with
  | seq next => exact hne ⟨next, he⟩
  | branch | ret =>
    rw [he] at hfirst
    cases hfirst.1

end Cases

def loopCode (code : Body) (label : LoopLabel) (selector : LocalId) (bodies : List Body) : Body :=
  code ++ [.loop label [] [] [.switch selector bodies], .unreachable]

/-- The parts of a dispatch loop for a graph: the code before the loop, its label and selector, and
the nodes that have cases, with their cases. -/
structure Laid (ctx : Context) (g : Graph) (ctx' : Context) (b : Block) (code : Body)
    (label : LoopLabel) (selector : LocalId) (nodes : List (NodeId × Node)) (bodies : List Body) :
    Prop where
  grows : ctx.Grows ctx'
  flag : ctx.locals.Flag ctx'.locals selector
  fresh : (ctx.regime False).Lacks label
  blocks : ∀ e ∈ nodes, g.chart.block? e.1 = some e.2.block
  length : nodes.length ≤ g.size
  targets : ∀ {i n}, g.chart.Targets i n → n ∈ nodes.map (·.1)
  cases : List.Forall₂ (fun e => CaseCode ctx'.locals (nodes.map (·.1)) selector label e.2.block)
    nodes bodies
  entry : g.chart.block? g.entry = some b
  first : ¬ (∃ next, b.exit = .seq next) → g.entry ∈ nodes.map (·.1)
  prologue : Prologue ctx'.locals (nodes.map (·.1)) selector g.entry b code

section Laid

variable {plain : Prop} {ctx' : Context} {t' : State}

section

variable (h : Laid ctx g ctx' b code label selector nodes bodies)

include h

theorem Laid.stops (hf : ctx.Fine) (hT : g.chart.Typed (ctx.regime plain)) :
    (ctx'.regime plain).Stops b.inputStack (loopCode code label selector bodies) := by
  have htyped := hT.mono (h.grows.regime plain)
  refine stops_dispatch (h.grows.valid hf.valid) h.flag.integer (h.grows.lacks.2 h.fresh)
    (htyped.blocks h.entry) h.prologue ?_
  intro body hbody
  obtain ⟨e, he, hcase⟩ := exists_node
    (P := fun n => CaseCode ctx'.locals (nodes.map (·.1)) selector label n.block) h.cases hbody
  exact ⟨e.2, htyped.blocks (h.blocks e he), hcase⟩

theorem Laid.hasCases : HasCases g.chart ctx'.locals (nodes.map (·.1)) selector label bodies := by
  intro id hid
  obtain ⟨n, body, hn, hget, hcase⟩ := exists_case
    (P := fun n => CaseCode ctx'.locals (nodes.map (·.1)) selector label n.block) h.cases hid
  exact ⟨n.block, body, h.blocks _ hn, hget, hcase⟩

theorem Laid.length_le (hsize : g.size ≤ 2 ^ 31) : (nodes.map (·.1)).length ≤ 2 ^ 31 := by
  rw [length_map]
  exact Nat.le_trans h.length hsize

theorem Laid.meets_prologue (L : Layout (ctx.regime plain) K g.chart ctx'.locals)
    (hg : Good (ctx.regime plain) g.chart (g.entry, s)) :
    g.chart.Tracks K w (fun a t => ∃ a',
      Steps (g.chart.step K w) a a' ∧
        AtSwitch (ctx.regime plain) K g.chart ctx'.locals (nodes.map (·.1)) selector a' t)
      (g.entry, s) (exec w code (s.forget K)) :=
  Dispatch.meets_prologue L h.flag h.targets h.entry h.prologue h.first hg

theorem Laid.meets_switch (L : Layout (ctx.regime plain) K g.chart ctx'.locals)
    (hsize : g.size ≤ 2 ^ 31)
    (hat : AtSwitch (ctx.regime plain) K g.chart ctx'.locals (nodes.map (·.1)) selector p t) :
    Meets (g.chart.step K w) (Turn (g.chart.step K w)
      (AtSwitch (ctx.regime plain) K g.chart ctx'.locals (nodes.map (·.1)) selector)
      (fun _ _ => False) label 0) p (exec w [.switch selector bodies] t) :=
  Dispatch.meets_switch L h.flag h.targets h.fresh (h.length_le hsize) h.hasCases hat

/-- **The dispatch loop does what the walk does.** -/
theorem Laid.refines (L : Layout (ctx.regime plain) K g.chart ctx'.locals) (hsize : g.size ≤ 2 ^ 31)
    (hg : Good (ctx.regime plain) g.chart (g.entry, s)) :
    Refines Le (g.chart.walk K w g.entry s)
      (exec w (loopCode code label selector bodies) (s.forget K)) := by
  refine Meets.refines (Meets.endsAs ?_)
  rw [loopCode, exec_append]
  refine Meets.andThen (h.meets_prologue L hg) ?_
  rintro a t ⟨a', hsteps, hat⟩
  refine Meets.of_steps hsteps ?_
  have hrow : [Instruction.loop label [] [] [.switch selector bodies], .unreachable] =
      [.loop label [] [] [.switch selector bodies]] ++ [.unreachable] := rfl
  have hempty : HasTypes t.stack [] := by
    rw [hat.waits.stack]
    exact .nil
  rw [hrow, exec_append, exec_loop hempty]
  refine Meets.andThen (N := fun _ _ => False) (meets_loop (fun p t => h.meets_switch L hsize) hat) ?_
  exact fun _ _ hfalse => hfalse.elim

end

abbrev Heads (w : World) (label : LoopLabel) (body : Body) : State → State → Prop :=
  Steps fun s => (exec w body s).map (endRound label 0 [])

def Ahead (ctx : Context) (K : LocalId → Prop) (g : Graph) (ls : Locals) (cases : List NodeId)
    (selector : LocalId) (w : World) (t : State) : Prop :=
  ∃ p t₀, AtSwitch (ctx.regime False) K g.chart ls cases selector p t₀ ∧ Le t₀ t ∧
    iter (g.chart.step K w) p ≠ some .stuck

theorem Laid.ahead_round (h : Laid ctx g ctx' b code label selector nodes bodies)
    (L : Layout (ctx.regime False) K g.chart ctx'.locals) (hsize : g.size ≤ 2 ^ 31)
    (ht : Ahead ctx K g ctx'.locals (nodes.map (·.1)) selector w t)
    (hround : (exec w [.switch selector bodies] t).map (endRound label 0 []) = some (.inl t')) :
    Ahead ctx K g ctx'.locals (nodes.map (·.1)) selector w t' := by
  obtain ⟨p, t₀, hat, hle, hsound⟩ := ht
  obtain ⟨r', hr', hend⟩ := Option.map_eq_some_iff.1 hround
  have hmeets := h.meets_switch (w := w) L hsize hat
  have hle' := exec_le w [.switch selector bodies] hle
  rw [hr'] at hle'
  generalize exec w [.switch selector bodies] t₀ = x at hmeets hle'
  cases hmeets with
  | stuck _ hstuck => exact absurd hstuck hsound
  | forever _ => cases hle'
  | @comes q r hsteps hturn =>
    rw [iter_of_steps hsteps] at hsound
    cases hle' with
    | stuck =>
      obtain ⟨r₀, hr₀, hrel⟩ : EndsAs (g.chart.step K w) q .stuck := hturn
      cases hrel
    | ends hrel =>
      cases hrel with
      | next | returned | trapped => cases hend
      | @jump l u u' hu =>
        simp only [endRound, Nat.zero_le, if_true, take_zero, nil_append] at hend
        by_cases hl : l = label
        · rw [if_pos hl] at hend
          cases hend
          simp only [Turn, endRound, if_pos hl, Nat.zero_le, if_true, take_zero,
            nil_append] at hturn
          obtain ⟨q', hgo, hat'⟩ := hturn
          rw [iter_of_inl hgo] at hsound
          exact ⟨q', _, hat', hu.withStack [], hsound⟩
        · rw [if_neg hl] at hend
          cases hend

/-- **Every round finds the number of a case in the selector.** -/
theorem Laid.selected (h : Laid ctx g ctx' b code label selector nodes bodies)
    (L : Layout (ctx.regime False) K g.chart ctx'.locals) (hsize : g.size ≤ 2 ^ 31) {s' : State}
    (hg : Good (ctx.regime False) g.chart (g.entry, s)) (hle : Le (s.forget K) s')
    (hsound : g.chart.walk K w g.entry s ≠ some .stuck) (ht : exec w code s' = some (.next t))
    (hheads : Heads w label [.switch selector bodies] t t') :
    ∃ k, k < bodies.length ∧ t'.locals selector = some (.i32 (Int32.ofNat k)) := by
  have hstart : Ahead ctx K g ctx'.locals (nodes.map (·.1)) selector w t := by
    have hmeets := h.meets_prologue (w := w) L hg
    have hle' := exec_le w code hle
    rw [ht] at hle'
    generalize exec w code (s.forget K) = x at hmeets hle'
    cases hmeets with
    | stuck _ hstuck => exact absurd hstuck hsound
    | forever _ => cases hle'
    | @comes q r hsteps hthrough =>
      rw [walk, iter_of_steps hsteps] at hsound
      cases hle' with
      | stuck =>
        obtain ⟨r₀, hr₀, hrel⟩ : EndsAs (g.chart.step K w) q .stuck := hthrough
        cases hrel
      | ends hrel =>
        cases hrel with
        | next hu =>
          obtain ⟨q', hsteps', hat⟩ := hthrough
          rw [iter_of_steps hsteps'] at hsound
          exact ⟨q', _, hat, hu, hsound⟩
  have hend : Ahead ctx K g ctx'.locals (nodes.map (·.1)) selector w t' := by
    induction hheads with
    | refl => exact hstart
    | tail _ hround ih => exact h.ahead_round L hsize ih hround
  obtain ⟨p, t₀, hat, hle', _⟩ := hend
  refine ⟨_, ?_, hle'.locals_eq hat.selected⟩
  have hlen := idxOf_lt_length_iff.2 hat.mem
  rwa [length_map, h.cases.length_eq] at hlen

end Laid

end Dispatch

open Dispatch in
theorem flatDispatch_spec {g : Graph} (hf : ctx.Fine) (hg : g.Tidy) (hC : g.chart.Closed) :
    Succeeds (flatDispatch g) ctx fun n ctx' => ∃ b code label selector nodes bodies,
      Laid ctx g ctx' b code label selector nodes bodies ∧
        n = .new (loopCode code label selector bodies) b.inputStack [] := by
  unfold flatDispatch
  refine (Succeeds.get ctx).bind ?_
  rintro _ ctx ⟨rfl, rfl⟩
  refine (Succeeds.works (Graph.fingerprint_works hg hC _) ctx).bind ?_
  rintro ⟨fingerprint, g'⟩ ctx ⟨rfl, htidy, hchart, hsize⟩
  refine (Succeeds.emit _).bind fun _ ctx₁ hg₁ => ?_
  refine (Succeeds.recordFallback _ _).bind fun _ ctx₂ hg₂ => ?_
  obtain ⟨b, hb⟩ := hC.entry
  have hentry : g'.entry = g.entry := congrArg Chart.entry hchart
  have hb' : g'.chart.block? g'.entry = some b := by
    rw [hchart, hentry]
    exact hb
  refine (Succeeds.works (Graph.works_node hb') ctx₂).bind ?_
  rintro entryNode ctx₂ ⟨rfl, hget, rfl⟩
  have hf₂ := (hg₁.trans hg₂).fine hf
  refine (freshFlag_spec ctx₂ "lbl").bind ?_
  rintro selector ctx₃ ⟨hg₃, hsel⟩
  replace hsel := hsel hf₂.valid
  refine (freshLabel_spec ctx₃).bind fun label ctx₄ hlabel => ?_
  have hf₃ := hg₃.fine hf₂
  have hC' : g'.chart.Closed := hchart ▸ hC
  have htargets : ∀ {i id}, g'.chart.Targets i id → id ∈ (caseNodes g' entryNode).map (·.1) :=
    mem_cases_of_targets htidy hC' hget
  have hnodes := block?_of_mem_caseNodes (n := entryNode) htidy
  refine (prologue_spec ctx₄ _ selector g'.entry (fun i hi => htargets ⟨_, hb', hi⟩)
    (entry_mem_cases hC')).bind ?_
  rintro code ctx₅ ⟨hg₅, hcode⟩
  refine (Succeeds.mapM
    (P := fun ctx (e : NodeId × Node) => CaseCode ctx.locals _ selector label e.2.block)
    (fun hg hc => hc.mono hg.locals) (fun e he ctx => caseOf_spec ctx _ selector label
      fun i hi => htargets ⟨_, hnodes e he, hi⟩) ctx₅).bind ?_
  rintro bodies ctx₆ ⟨hg₆, hbodies⟩
  have hgrows := (hg₁.trans hg₂).trans (hg₃.trans hlabel.grows) |>.trans (hg₅.trans hg₆)
  rw [hchart] at hnodes
  rw [hchart] at htargets
  refine .pure ⟨_, code, label, selector, _, bodies,
    ⟨hgrows, ?_, ?_, hnodes, ?_, htargets, hbodies, hb,
      fun h => hentry ▸ entry_mem_cases hC' h, ?_⟩, rfl⟩
  · exact (hsel.mono (hlabel.grows.trans (hg₅.trans hg₆)).locals).since (hg₁.trans hg₂).locals
  · exact hgrows.lacks.1 ((hg₅.trans hg₆).lacks.2 (hlabel.fresh hf₃ False))
  · rw [← hsize]
    exact length_filter_le _ _
  · rw [← hentry]
    exact hcode.mono hg₆.locals

/-- **A dispatch loop solves any sound graph.** -/
theorem flatDispatch_works {plain : Prop} {g : Graph} (hf : ctx.Fine) (hs : g.Sound ctx plain) :
    Succeeds (flatDispatch g) ctx (Solves plain ctx g) := by
  refine (flatDispatch_spec hf hs.tidy hs.closed).mono ?_
  rintro n ctx' ⟨b, code, label, selector, nodes, bodies, hlaid, rfl⟩
  refine ⟨hlaid.grows, rfl, ?_, hlaid.stops hf hs.typed, ?_⟩
  · intro b' hb'
    rw [hlaid.entry] at hb'
    cases hb'
    exact .refl _ _
  · intro _ hstrict hsize K hK w s hg
    exact hlaid.refines ⟨hs.typed, hs.closed, hstrict, hlaid.grows.locals,
      hlaid.grows.valid hf.valid, hK⟩ hsize hg

end Structurer
