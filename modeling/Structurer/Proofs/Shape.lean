/-
**Fingerprints and shapes.**

Two graphs have the same shape if one is the other under new identifiers: the entries correspond, and
corresponding nodes leave in the same way, to corresponding successors in the same order.  Where every
node is within reach of the entry, the breadth-first order of the nodes depends on the shape only, so
graphs of one shape have one fingerprint.  The other way round, a fingerprint that was not cut can be read
back: a letter starts the part of a node, and the digits of a position end where a mark or a letter comes.
-/

import Mathlib.Data.List.GetD
import Mathlib.Data.Set.Function
import Structurer.Proofs.Reachability
import Structurer.Proofs.Region

namespace Structurer

open Fallible List

variable {maxLen : Nat} {text : String} {found l reached queue order order' : List NodeId}
  {id : NodeId}

/-! ### Spelling exits -/

namespace Exit

variable {e : Exit} {f h : NodeId → NodeId}

theorem map_map (f h : NodeId → NodeId) (e : Exit) : (e.map f).map h = e.map fun id => h (f id) := by
  cases e <;> rfl

@[simp] theorem letter_map (f : NodeId → NodeId) : (e.map f).letter = e.letter := by
  cases e <;> rfl

theorem map_congr (hfh : ∀ id ∈ e.outputs, f id = h id) : e.map f = e.map h := by
  cases e with
  | seq next => simp [Exit.map, hfh next (by simp [outputs])]
  | branch ifTrue ifFalse =>
    simp [Exit.map, hfh ifTrue (by simp [outputs]), hfh ifFalse (by simp [outputs])]
  | ret => rfl

theorem map_eq_self (hf : ∀ id ∈ e.outputs, f id = id) : e.map f = e := by
  rw [map_congr (h := fun id => id) hf]
  cases e <;> rfl

def print (e : Exit) : String :=
  e.letter.toString ++ "-".intercalate (e.outputs.map fun id => toString id.serial)

def numbers : Exit → List Char
  | seq next => Nat.toDigits 10 next.serial
  | branch ifTrue ifFalse => Nat.toDigits 10 ifTrue.serial ++ '-' :: Nat.toDigits 10 ifFalse.serial
  | ret => []

theorem toList_print : e.print.toList = e.letter :: e.numbers := by
  cases e <;> simp [print, letter, outputs, numbers]

def isNumbering (c : Char) : Bool := c.isDigit || c == '-'

theorem isNumbering_of_mem_numbers {c : Char} (hc : c ∈ e.numbers) : isNumbering c = true := by
  have hdigit : ∀ n : Nat, c ∈ Nat.toDigits 10 n → isNumbering c = true := fun n hn => by
    simp [isNumbering, Nat.isDigit_of_mem_toDigits (by decide) (by decide) hn]
  cases e with
  | seq next => exact hdigit _ hc
  | branch ifTrue ifFalse =>
    rcases mem_append.1 hc with hc | hc
    · exact hdigit _ hc
    · rcases mem_cons.1 hc with rfl | hc
      · rfl
      · exact hdigit _ hc
  | ret => cases hc

theorem isNumbering_letter (e : Exit) : isNumbering e.letter = false := by
  cases e <;> rfl

theorem append_inj_of_run {p : Char → Bool} {a a' b b' : List Char} (ha : ∀ c ∈ a, p c = true)
    (ha' : ∀ c ∈ a', p c = true) (hb : ∀ c ∈ b.head?, p c = false) (hb' : ∀ c ∈ b'.head?, p c = false)
    (heq : a ++ b = a' ++ b') : a = a' ∧ b = b' := by
  have stops : ∀ l : List Char, (∀ c ∈ l.head?, p c = false) → l.takeWhile p = [] := by
    intro l hl
    cases l with
    | nil => rfl
    | cons c l => rw [takeWhile_cons, hl c rfl]; rfl
  have hruns := congrArg (List.takeWhile p) heq
  rw [takeWhile_append_of_pos ha, takeWhile_append_of_pos ha', stops b hb, stops b' hb',
    append_nil, append_nil] at hruns
  subst hruns
  exact ⟨rfl, append_cancel_left heq⟩

theorem toDigits_injective {m n : Nat} (heq : Nat.toDigits 10 m = Nat.toDigits 10 n) : m = n := by
  have hread := congrArg (Nat.ofDigitChars 10 · 0) heq
  simpa only [Nat.ofDigitChars_toDigits (by decide : 1 < 10) (by decide : 10 ≤ 10)] using hread

theorem eq_of_numbers {e' : Exit} (hletter : e.letter = e'.letter) (hnumbers : e.numbers = e'.numbers) :
    e = e' := by
  have digits : ∀ n c, c ∈ Nat.toDigits 10 n → c.isDigit = true :=
    fun n c hc => Nat.isDigit_of_mem_toDigits (by decide) (by decide) hc
  cases e with
  | seq next =>
    cases e' with
    | seq next' => exact congrArg (fun k => seq ⟨k⟩) (toDigits_injective hnumbers)
    | branch ifTrue' ifFalse' => simp [letter] at hletter
    | ret => simp [letter] at hletter
  | branch ifTrue ifFalse =>
    cases e' with
    | seq next' => simp [letter] at hletter
    | branch ifTrue' ifFalse' =>
      obtain ⟨htrue, hfalse⟩ := append_inj_of_run (digits _) (digits _) (by simp) (by simp)
        hnumbers
      have hT := toDigits_injective htrue
      have hF := toDigits_injective (cons_inj_right _ |>.1 hfalse)
      exact congrArg₂ (fun j k => branch ⟨j⟩ ⟨k⟩) hT hF
    | ret => simp [letter] at hletter
  | ret =>
    cases e' with
    | seq next' => simp [letter] at hletter
    | branch ifTrue' ifFalse' => simp [letter] at hletter
    | ret => rfl

theorem spellings_injective {es es' : List Exit}
    (heq : (es.flatMap fun e => e.letter :: e.numbers) = es'.flatMap fun e => e.letter :: e.numbers) :
    es = es' := by
  -- the next part, if there is one, starts with a letter
  have next : ∀ es : List Exit, ∀ c ∈ (es.flatMap fun e => e.letter :: e.numbers).head?,
      isNumbering c = false := by
    intro es c hc
    cases es with
    | nil => cases hc
    | cons e es =>
      cases hc
      exact isNumbering_letter e
  induction es generalizing es' with
  | nil =>
    cases es' with
    | nil => rfl
    | cons e' es' => cases heq
  | cons e es ih =>
    cases es' with
    | nil => cases heq
    | cons e' es' =>
      rw [flatMap_cons, flatMap_cons, cons_append, cons_append,
        List.cons.injEq] at heq
      obtain ⟨hletter, heq⟩ := heq
      obtain ⟨hnumbers, hrest⟩ := append_inj_of_run (fun _ => isNumbering_of_mem_numbers)
        (fun _ => isNumbering_of_mem_numbers) (next es) (next es') heq
      rw [eq_of_numbers hletter hnumbers, ih hrest]

/-- **A row of exits can be read back from its spelling.** -/
theorem printAll_injective {es es' : List Exit}
    (heq : String.join (es.map print) = String.join (es'.map print)) : es = es' := by
  have hlists := congrArg String.toList heq
  simp only [String.toList_join, flatMap_map, toList_print] at hlists
  exact spellings_injective hlists

end Exit

/-! ### Outlines -/

def Chart.outline (G : Chart) (order : List NodeId) : List (Option Exit) :=
  order.map fun id => (G.block? id).map fun b => b.exit.map (Graph.renamed order)

namespace Graph

variable {g g' s s' : Graph} {f : NodeId → NodeId}

/-- One graph is another one under new identifiers: `f` pairs the nodes off, the entries with each other,
and corresponding nodes leave in the same way, to corresponding successors in the same order. -/
structure Renames (f : NodeId → NodeId) (g g' : Graph) : Prop where
  bijOn : Set.BijOn f {id | id ∈ g.ids} {id | id ∈ g'.ids}
  entry_mem : g.entry ∈ g.ids
  entry : f g.entry = g'.entry
  exit : ∀ {id n}, g.get? id = some n → ∃ n', g'.get? (f id) = some n' ∧ n'.exit = n.exit.map f

/-- The identifiers were issued once, edges and predecessors agree, and the entry reaches every node. -/
structure Rooted (g : Graph) : Prop where
  numbered : g.Numbered
  linked : g.checkLinks = .ok ()
  path : ∀ id ∈ g.ids, ∃ nodes, g.chart.Path g.entry nodes id

def fullPrint (g : Graph) : Except Fault String := do
  let g ← g.sortBreadthFirst
  let parts ← g.nodes.mapM fun (_, n) => g.nodePrint n
  return String.join parts

theorem fingerprint_eq_ok_iff :
    (∃ s, g.fingerprint maxLen = .ok (text, s)) ↔
      ∃ full, g.fullPrint = .ok full ∧ text = abridge maxLen full := by
  constructor
  · rintro ⟨s, hs⟩
    obtain ⟨s, hsort, hs⟩ := bind_eq_ok_iff.1 hs
    obtain ⟨parts, hparts, hs⟩ := bind_eq_ok_iff.1 hs
    cases hs
    exact ⟨_, bind_eq_ok_iff.2 ⟨s, hsort, bind_eq_ok_iff.2 ⟨parts, hparts, rfl⟩⟩, rfl⟩
  · rintro ⟨full, hfull, rfl⟩
    obtain ⟨s, hsort, hfull⟩ := bind_eq_ok_iff.1 hfull
    obtain ⟨parts, hparts, hfull⟩ := bind_eq_ok_iff.1 hfull
    cases hfull
    exact ⟨s, bind_eq_ok_iff.2 ⟨s, hsort, bind_eq_ok_iff.2 ⟨parts, hparts, rfl⟩⟩⟩

theorem abridge_of_le (h : text.length ≤ maxLen) : abridge maxLen text = text :=
  if_pos h

theorem entry_mem_of_fullPrint (h : g.fullPrint = .ok text) : g.entry ∈ g.ids := by
  obtain ⟨s, hs, _⟩ := bind_eq_ok_iff.1 h
  obtain ⟨found, hfound, _⟩ := bind_eq_ok_iff.1 hs
  obtain ⟨n, hn, _⟩ := bind_eq_ok_iff.1 hfound
  exact mem_ids_iff.2 ⟨n, node_eq_ok_iff.1 hn⟩

/-! ### Graphs in breadth-first order -/

/-- A graph in breadth-first order: its nodes as the walk from the entry finds them, each of them numbered
by its position. -/
structure Sorted (g s : Graph) : Prop where
  found : g.reachable g.entry none = .ok s.ids
  mem_iff : ∀ {id}, id ∈ s.ids ↔ id ∈ g.ids
  nodup : s.ids.Nodup
  chart : s.chart = g.chart
  index : ∀ {id n}, s.get? id = some n → n.index = s.ids.idxOf id

theorem Rooted.consistent (hg : g.Rooted) (hentry : g.entry ∈ g.ids) : g.Consistent :=
  hg.numbered.consistent (fun h => by simp [ids, h] at hentry) hg.linked

theorem map_fst_lookups (h : ∀ id ∈ found, id ∈ g.ids) :
    (found.filterMap fun id => (g.get? id).map fun n => (id, n)).map (·.1) = found := by
  induction found with
  | nil => rfl
  | cons id found ih =>
    obtain ⟨n, hn⟩ := mem_ids_iff.1 (h id (.head _))
    rw [filterMap_cons, hn]
    exact congrArg (id :: ·) (ih fun j hj => h j (.tail _ hj))

theorem Rooted.sorted (hg : g.Rooted) (hentry : g.entry ∈ g.ids) :
    Works g.sortBreadthFirst (Sorted g) := by
  have hs := hg.consistent hentry
  obtain ⟨found, hfound, hreached⟩ := reachable_works hs.closed.landing hs.closed.entry none
  have hsort : g.sortBreadthFirst = .ok _ := bind_eq_ok_iff.2 ⟨found, hfound, rfl⟩
  obtain ⟨htidy, hchart, _⟩ := hs.tidy.of_sortBreadthFirst hsort
  have hmem : ∀ {id}, id ∈ found ↔ id ∈ g.ids := by
    intro id
    rw [hreached.mem_iff, Chart.inReach_none_iff, ← Chart.exists_path_iff]
    refine ⟨fun ⟨nodes, hpath⟩ => ?_, hg.path id⟩
    exact live_iff_mem.1 (hreached.live id (hreached.mem_iff.2 ⟨nodes, hpath, by simp⟩))
  have hback : g.nodes.filter (·.1 ∉ found) = [] := by
    rw [filter_eq_nil_iff]
    intro e he
    simpa using hmem.2 (mem_map_of_mem he)
  have hids : Graph.ids (renumber { g with nodes :=
      (found.filterMap fun id => (g.get? id).map fun n => (id, n)) ++ g.nodes.filter (·.1 ∉ found) }) =
        found := by
    rw [(same_renumber _).1.ids, hback, append_nil]
    exact map_fst_lookups fun id hid => hmem.1 hid
  exact ⟨_, hsort, by rw [hids]; exact hfound, by rw [hids]; exact hmem, htidy.nodup, hchart,
    fun hn => index_renumber hn⟩

theorem Rooted.fullPrint (hg : g.Rooted) (hentry : g.entry ∈ g.ids) :
    ∃ (s : Graph) (exits : List Exit), Sorted g s ∧ g.fullPrint = .ok (String.join (exits.map Exit.print)) ∧
      exits.map some = g.chart.outline s.ids := by
  obtain ⟨s, hsort, h⟩ := hg.sorted hentry
  have hL : g.chart.Landing := (hg.consistent hentry).closed.landing
  have hparts : ∀ e ∈ s.nodes, s.nodePrint e.2 = .ok (e.2.exit.map (renamed s.ids)).print := by
    rintro ⟨id, n⟩ hn
    have hget : s.get? id = some n := (get?_eq_some_iff h.nodup).2 hn
    have houts : ∀ out ∈ n.outputs,
        (return toString (← s.node out).index : Except Fault String) =
          .ok (toString (s.ids.idxOf out)) := by
      intro out hout
      have hlive : g.chart.Live out := hL (h.chart ▸ (targets_iff_of_get? hget).2 hout)
      obtain ⟨m, hm⟩ := mem_ids_iff.1 (h.mem_iff.2 (live_iff_mem.1 hlive))
      rw [node_eq_ok_iff.2 hm]
      exact congrArg (fun k => Except.ok (toString k)) (h.index hm)
    show (n.outputs.mapM _ >>= _) = _
    rw [mapM_eq_ok houts, Exit.print, Exit.outputs_map, List.map_map, Exit.letter_map]
    rfl
  have hprint : g.fullPrint = .ok (String.join
      (s.nodes.map fun e => (e.2.exit.map (renamed s.ids)).print)) :=
    bind_eq_ok_iff.2 ⟨s, hsort, bind_eq_ok_iff.2 ⟨_, mapM_eq_ok hparts, rfl⟩⟩
  refine ⟨s, s.nodes.map fun e => e.2.exit.map (renamed s.ids), h, by rw [hprint, List.map_map]; rfl, ?_⟩
  rw [← h.chart, Chart.outline, ids, List.map_map, List.map_map]
  refine map_congr_left fun e he => ?_
  have hget : s.get? e.1 = some e.2 := (get?_eq_some_iff h.nodup).2 he
  simp [block?_of_get? hget]

/-! ### From shapes to fingerprints -/

section Renaming

variable (hf : Renames f g g')

include hf

theorem Renames.mem_map_iff (hid : id ∈ g.ids) (hl : ∀ x ∈ l, x ∈ g.ids) :
    f id ∈ l.map f ↔ id ∈ l := by
  refine ⟨fun h => ?_, mem_map_of_mem⟩
  obtain ⟨x, hx, heq⟩ := mem_map.1 h
  exact hf.bijOn.injOn (hl x hx) hid heq ▸ hx

theorem Renames.idxOf_map (hid : id ∈ g.ids) (hl : ∀ x ∈ l, x ∈ g.ids) :
    (l.map f).idxOf (f id) = l.idxOf id := by
  induction l with
  | nil => rfl
  | cons x l ih =>
    have hx := hl x (.head _)
    have heq : (f x == f id) = (x == id) := by
      rw [Bool.eq_iff_iff, beq_iff_eq, beq_iff_eq]
      exact ⟨fun h => hf.bijOn.injOn hx hid h, congrArg f⟩
    rw [map_cons, idxOf_cons, idxOf_cons, heq,
      ih fun y hy => hl y (.tail _ hy)]

theorem Renames.enqueue_map {outs : List NodeId} (hreached : ∀ x ∈ reached, x ∈ g.ids)
    (hqueue : ∀ x ∈ queue, x ∈ g.ids) (houts : ∀ x ∈ outs, x ∈ g.ids) :
    enqueue none (reached.map f) (queue.map f) (outs.map f) =
      (enqueue none reached queue outs).map f := by
  induction outs generalizing queue with
  | nil => rfl
  | cons out outs ih =>
    have hout := houts out (.head _)
    have hrest : ∀ x ∈ outs, x ∈ g.ids := fun x hx => houts x (.tail _ hx)
    have hmet : (some (f out) = none ∨ f out ∈ reached.map f ∨ f out ∈ queue.map f) ↔
        (some out = none ∨ out ∈ reached ∨ out ∈ queue) := by
      rw [hf.mem_map_iff hout hreached, hf.mem_map_iff hout hqueue]
      simp
    rw [map_cons, enqueue_cons, enqueue_cons]
    by_cases h : some out = none ∨ out ∈ reached ∨ out ∈ queue
    · rw [if_pos h, if_pos (hmet.2 h), ih hqueue hrest]
    · rw [if_neg h, if_neg fun h' => h (hmet.1 h')]
      have hmore : ∀ x ∈ queue ++ [out], x ∈ g.ids := fun x hx => by
        rcases mem_append.1 hx with hx | hx
        · exact hqueue x hx
        · exact mem_singleton.1 hx ▸ hout
      rw [← ih hmore hrest, map_append]
      rfl

theorem Renames.walk_map (hL : g.chart.Landing) (fuel : Nat) (hreached : ∀ x ∈ reached, x ∈ g.ids)
    (hqueue : ∀ x ∈ queue, x ∈ g.ids) :
    g'.walk none fuel (reached.map f) (queue.map f) = (g.walk none fuel reached queue).map (·.map f) := by
  induction fuel generalizing reached queue with
  | zero => rfl
  | succ fuel ih =>
    cases queue with
    | nil => rfl
    | cons id queue =>
      have hid := hqueue id (.head _)
      have hrest : ∀ x ∈ queue, x ∈ g.ids := fun x hx => hqueue x (.tail _ hx)
      obtain ⟨n, hn⟩ := mem_ids_iff.1 hid
      obtain ⟨n', hn', hexit⟩ := hf.exit hn
      have houts : ∀ x ∈ n.outputs, x ∈ g.ids :=
        fun x hx => live_iff_mem.1 (hL ((targets_iff_of_get? hn).2 hx))
      have hleft : ∀ x ∈ reached ++ [id], x ∈ g.ids := fun x hx => by
        rcases mem_append.1 hx with hx | hx
        · exact hreached x hx
        · exact mem_singleton.1 hx ▸ hid
      have hjoin : enqueue none (reached.map f ++ [f id]) (queue.map f) n'.outputs =
          (enqueue none (reached ++ [id]) queue n.outputs).map f := by
        rw [← hf.enqueue_map hleft hrest houts, map_append, Node.outputs, hexit,
          Exit.outputs_map]
        rfl
      show (g'.node (f id) >>= _) = Except.map _ (g.node id >>= _)
      rw [node_eq_ok_iff.2 hn, node_eq_ok_iff.2 hn', ok_bind, ok_bind]
      show g'.walk none fuel (reached.map f ++ [f id])
        (enqueue none (reached.map f ++ [f id]) (queue.map f) n'.outputs) = _
      rw [hjoin, ← ih hleft fun x hx => ?_, map_append]
      · rfl
      · rcases mem_enqueue.1 hx with hx | ⟨hx, _⟩
        · exact hrest x hx
        · exact houts x hx

theorem Renames.size_eq (hnd : g.ids.Nodup) (hnd' : g'.ids.Nodup) : g'.size = g.size := by
  have hperm : (g.ids.map f).Perm g'.ids := by
    refine (perm_ext_iff_of_nodup (hnd.map_on fun x hx y hy h => hf.bijOn.injOn hx hy h) hnd').2
      fun id => ?_
    rw [mem_map]
    exact ⟨fun ⟨x, hx, h⟩ => h ▸ hf.bijOn.mapsTo hx, fun h => hf.bijOn.surjOn h⟩
  simpa [ids, size] using hperm.length_eq.symm

/-- **The breadth-first order goes along with new identifiers.** -/
theorem Renames.reachable (hL : g.chart.Landing) (hnd : g.ids.Nodup) (hnd' : g'.ids.Nodup)
    (hfound : g.reachable g.entry none = .ok found) :
    g'.reachable g'.entry none = .ok (found.map f) := by
  have hwalk : g'.walk none (g.size + 1) ([].map f) ([g.entry].map f) =
      (g.walk none (g.size + 1) [] [g.entry]).map (·.map f) :=
    hf.walk_map hL (g.size + 1) (by simp) (by simpa using hf.entry_mem)
  rw [show g.walk none (g.size + 1) [] [g.entry] = .ok found from hfound] at hwalk
  rw [Graph.reachable, hf.size_eq hnd hnd', if_neg (by simp), ← hf.entry]
  exact hwalk

theorem Renames.outline_map (hL : g.chart.Landing) (hids : ∀ id ∈ order, id ∈ g.ids) :
    g'.chart.outline (order.map f) = g.chart.outline order := by
  rw [Chart.outline, Chart.outline, List.map_map]
  refine map_congr_left fun id hid => ?_
  obtain ⟨n, hn⟩ := mem_ids_iff.1 (hids id hid)
  obtain ⟨n', hn', hexit⟩ := hf.exit hn
  show (g'.chart.block? (f id)).map _ = _
  rw [block?_of_get? hn, block?_of_get? hn', Option.map_some, Option.map_some, Node.block_exit,
    Node.block_exit, hexit, Exit.map_map]
  refine congrArg some (Exit.map_congr fun out hout => ?_)
  have hmem : out ∈ g.ids := live_iff_mem.1 (hL ((targets_iff_of_get? hn).2 hout))
  exact congrArg NodeId.mk (hf.idxOf_map hmem hids)

end Renaming

/-! ### From fingerprints to shapes -/

theorem isPrefix_of_walk {avoid : Option NodeId} {fuel : Nat}
    (h : g.walk avoid fuel reached queue = .ok found) : reached <+: found := by
  induction fuel generalizing reached queue with
  | zero => cases h; exact prefix_rfl
  | succ fuel ih =>
    cases queue with
    | nil => cases h; exact prefix_rfl
    | cons id queue =>
      obtain ⟨n, _, h⟩ := bind_eq_ok_iff.1 h
      exact (prefix_append reached [id]).trans (ih h)

theorem head_reachable (h : g.reachable g.entry none = .ok found) : found.head? = some g.entry := by
  obtain ⟨n, _, h⟩ := bind_eq_ok_iff.1 h
  obtain ⟨rest, rfl⟩ := isPrefix_of_walk h
  rfl

def paired (order order' : List NodeId) (id : NodeId) : NodeId := order'.getD (order.idxOf id) id

theorem paired_eq (hlen : order.length = order'.length) (hid : id ∈ order) :
    ∃ h : order.idxOf id < order'.length, paired order order' id = order'[order.idxOf id] := by
  have h : order.idxOf id < order'.length := hlen ▸ idxOf_lt_length_iff.2 hid
  exact ⟨h, getD_eq_getElem _ _ h⟩

theorem paired_mem (hlen : order.length = order'.length) (hid : id ∈ order) :
    paired order order' id ∈ order' := by
  obtain ⟨h, heq⟩ := paired_eq hlen hid
  exact heq ▸ getElem_mem h

theorem paired_paired (hlen : order.length = order'.length) (hnd : order'.Nodup) (hid : id ∈ order) :
    paired order' order (paired order order' id) = id := by
  obtain ⟨h, heq⟩ := paired_eq hlen hid
  obtain ⟨h', heq'⟩ := paired_eq hlen.symm (paired_mem hlen hid)
  rw [heq']
  simp only [heq, hnd.idxOf_getElem]
  exact getElem_idxOf _

/-- **Outlines tell how graphs correspond**: nodes at the same position of the two orders do. -/
theorem exists_renames (hs : Sorted g s) (hs' : Sorted g' s') (hL : g.chart.Landing)
    (hL' : g'.chart.Landing) (heq : g.chart.outline s.ids = g'.chart.outline s'.ids) :
    Renames (paired s.ids s'.ids) g g' := by
  have hlen : s.ids.length = s'.ids.length := by simpa [Chart.outline] using congrArg List.length heq
  have hentry : g.entry ∈ s.ids := mem_of_mem_head? (head_reachable hs.found)
  refine ⟨⟨fun id hid => ?_, fun a ha b hb h => ?_, fun id hid => ?_⟩, hs.mem_iff.1 hentry, ?_,
    fun {id n} hn => ?_⟩
  · exact hs'.mem_iff.1 (paired_mem hlen (hs.mem_iff.2 hid))
  · rw [← paired_paired hlen hs'.nodup (hs.mem_iff.2 ha), h,
      paired_paired hlen hs'.nodup (hs.mem_iff.2 hb)]
  · have hid' := hs'.mem_iff.2 hid
    exact ⟨paired s'.ids s.ids id, hs.mem_iff.1 (paired_mem hlen.symm hid'),
      paired_paired hlen.symm hs.nodup hid'⟩
  · obtain ⟨rest, hrest⟩ : ∃ rest, s.ids = g.entry :: rest :=
      head?_eq_some_iff.1 (head_reachable hs.found)
    obtain ⟨rest', hrest'⟩ : ∃ rest', s'.ids = g'.entry :: rest' :=
      head?_eq_some_iff.1 (head_reachable hs'.found)
    rw [paired, hrest, hrest', idxOf_cons_self]
    rfl
  · have hid : id ∈ s.ids := hs.mem_iff.2 (mem_ids_iff.2 ⟨n, hn⟩)
    obtain ⟨h', hpair⟩ := paired_eq hlen hid
    have h : s.ids.idxOf id < s.ids.length := idxOf_lt_length_iff.2 hid
    obtain ⟨n', hn'⟩ := mem_ids_iff.1 (hs'.mem_iff.1 (paired_mem hlen hid))
    refine ⟨n', hn', ?_⟩
    -- the exits at this position have the same outline
    have hexit : n.exit.map (renamed s.ids) = n'.exit.map (renamed s'.ids) := by
      have hat := congrArg (·[s.ids.idxOf id]?) heq
      simp only [Chart.outline, getElem?_map, getElem?_eq_getElem h,
        getElem?_eq_getElem h', Option.map_some, getElem_idxOf, block?_of_get? hn, ← hpair,
        block?_of_get? hn', Node.block_exit, Option.some.injEq] at hat
      exact hat
    calc n'.exit
        = (n'.exit.map (renamed s'.ids)).map fun k => s'.ids.getD k.serial g.entry := by
          rw [Exit.map_map]
          refine (Exit.map_eq_self fun out hout => ?_).symm
          have hmem : out ∈ s'.ids :=
            hs'.mem_iff.2 (live_iff_mem.1 (hL' ((targets_iff_of_get? hn').2 hout)))
          rw [renamed, getD_eq_getElem _ _ (idxOf_lt_length_iff.2 hmem), getElem_idxOf]
      _ = (n.exit.map (renamed s.ids)).map fun k => s'.ids.getD k.serial g.entry := by rw [hexit]
      _ = n.exit.map (paired s.ids s'.ids) := by
          rw [Exit.map_map]
          refine Exit.map_congr fun out hout => ?_
          have hmem : out ∈ s.ids :=
            hs.mem_iff.2 (live_iff_mem.1 (hL ((targets_iff_of_get? hn).2 hout)))
          obtain ⟨hlt, hpaired⟩ := paired_eq hlen hmem
          rw [hpaired, renamed, getD_eq_getElem _ _ hlt]

/-! ### Fingerprints -/

theorem Rooted.fullPrint_eq_iff (hg : g.Rooted) (hg' : g'.Rooted) (hentry : g.entry ∈ g.ids)
    (hentry' : g'.entry ∈ g'.ids) : g.fullPrint = g'.fullPrint ↔ ∃ f, Renames f g g' := by
  have hL : g.chart.Landing := (hg.consistent hentry).closed.landing
  have hL' : g'.chart.Landing := (hg'.consistent hentry').closed.landing
  obtain ⟨s, exits, hs, hprint, hexits⟩ := hg.fullPrint hentry
  obtain ⟨s', exits', hs', hprint', hexits'⟩ := hg'.fullPrint hentry'
  rw [hprint, hprint']
  constructor
  · intro h
    cases Exit.printAll_injective (Except.ok.inj h)
    exact ⟨_, exists_renames hs hs' hL hL' (hexits.symm.trans hexits')⟩
  · rintro ⟨f, hf⟩
    have hfound := hf.reachable hL hg.numbered.nodup hg'.numbered.nodup hs.found
    have hids : s'.ids = s.ids.map f := Except.ok.inj (hs'.found.symm.trans hfound)
    have hsame : exits.map some = exits'.map some := by
      rw [hexits, hexits', hids, hf.outline_map hL fun id hid => hs.mem_iff.1 hid]
    rw [map_injective_iff.2 (Option.some_injective _) hsame]

/-- **A fingerprint identifies the shape of a graph.**  Every graph in order that the entry reaches all of
has a fingerprint, and two such graphs, neither of whose fingerprints had to be cut, have the same one
exactly if one of them is the other under new identifiers. -/
theorem fingerprint_identifies_shape (hg : g.Rooted) (hg' : g'.Rooted) {maxLen : Nat}
    (hlen : ∀ text, g.fullPrint = .ok text → text.length ≤ maxLen)
    (hlen' : ∀ text, g'.fullPrint = .ok text → text.length ≤ maxLen) :
    (g.entry ∈ g.ids → ∃ text s, g.fingerprint maxLen = .ok (text, s)) ∧
    ((∃ text s s', g.fingerprint maxLen = .ok (text, s) ∧ g'.fingerprint maxLen = .ok (text, s')) ↔
      ∃ f, Renames f g g') := by
  have uncut : ∀ {h : Graph} {text}, (∀ text, h.fullPrint = .ok text → text.length ≤ maxLen) →
      ((∃ s, h.fingerprint maxLen = .ok (text, s)) ↔ h.fullPrint = .ok text) := by
    intro h text hle
    rw [fingerprint_eq_ok_iff]
    constructor
    · rintro ⟨full, hfull, rfl⟩
      rwa [abridge_of_le (hle full hfull)]
    · intro hfull
      exact ⟨text, hfull, (abridge_of_le (hle text hfull)).symm⟩
  refine ⟨fun hentry => ?_, ?_⟩
  · obtain ⟨_, exits, _, hprint, _⟩ := hg.fullPrint hentry
    exact ⟨_, (uncut hlen).2 hprint⟩
  constructor
  · rintro ⟨text, s, s', hs, hs'⟩
    have hprint := (uncut hlen).1 ⟨s, hs⟩
    have hprint' := (uncut hlen').1 ⟨s', hs'⟩
    exact (hg.fullPrint_eq_iff hg' (entry_mem_of_fullPrint hprint) (entry_mem_of_fullPrint hprint')).1
      (hprint.trans hprint'.symm)
  · rintro ⟨f, hf⟩
    have hentry' : g'.entry ∈ g'.ids := hf.entry ▸ hf.bijOn.mapsTo hf.entry_mem
    obtain ⟨_, exits, _, hprint, _⟩ := hg.fullPrint hf.entry_mem
    have hprint' := ((hg.fullPrint_eq_iff hg' hf.entry_mem hentry').2 ⟨f, hf⟩).symm.trans hprint
    obtain ⟨s, hs⟩ := (uncut hlen).2 hprint
    obtain ⟨s', hs'⟩ := (uncut hlen').2 hprint'
    exact ⟨_, s, s', hs, hs'⟩

theorem Rooted.of_reachable (numbered : g.Numbered) (hlinks : g.checkLinks = .ok ())
    (hentry : g.entry ∈ g.ids) (h : g.reachable g.entry none = .ok found) (hall : g.ids ⊆ found) :
    g.Rooted := by
  have hs := numbered.consistent (fun h => by simp [ids, h] at hentry) hlinks
  obtain ⟨_, hfound, hreached⟩ := reachable_works hs.closed.landing hs.closed.entry none
  cases h.symm.trans hfound
  refine ⟨numbered, hlinks, fun id hid => ?_⟩
  obtain ⟨nodes, hpath, _⟩ := hreached.mem_iff.1 (hall hid)
  exact ⟨nodes, hpath⟩

def meetingWays : Graph :=
  let n : Node := .new [] [] []
  recalculateInputs ⟨[(⟨0⟩, { n with exit := .branch ⟨1⟩ ⟨2⟩ }), (⟨1⟩, { n with exit := .seq ⟨3⟩ }),
    (⟨2⟩, { n with exit := .seq ⟨3⟩ }), (⟨3⟩, { n with exit := .branch ⟨3⟩ ⟨4⟩ }), (⟨4⟩, n)], 5, ⟨0⟩⟩

def meetingWaysAgain : Graph :=
  let n : Node := .new [.unreachable] [.i32] []
  recalculateInputs ⟨[(⟨7⟩, { n with exit := .branch ⟨7⟩ ⟨2⟩ }), (⟨9⟩, { n with exit := .seq ⟨7⟩ }),
    (⟨2⟩, n), (⟨4⟩, { n with exit := .seq ⟨7⟩ }), (⟨5⟩, { n with exit := .branch ⟨9⟩ ⟨4⟩ })], 10, ⟨5⟩⟩

theorem fingerprint_identifies_meetingWays :
    meetingWays.fullPrint = .ok "B1-2N3N3B3-4R" ∧ meetingWaysAgain.fullPrint = .ok "B1-2N3N3B3-4R" ∧
      ∃ f, Renames f meetingWays meetingWaysAgain := by
  have hprint : meetingWays.fullPrint = .ok "B1-2N3N3B3-4R" := by
    rw [← toOption_eq_some_iff]
    decide +kernel
  have hprint' : meetingWaysAgain.fullPrint = .ok "B1-2N3N3B3-4R" := by
    rw [← toOption_eq_some_iff]
    decide +kernel
  have hfound : meetingWays.reachable ⟨0⟩ none = .ok [⟨0⟩, ⟨1⟩, ⟨2⟩, ⟨3⟩, ⟨4⟩] := by
    rw [← toOption_eq_some_iff]
    decide +kernel
  have hfound' : meetingWaysAgain.reachable ⟨5⟩ none = .ok [⟨5⟩, ⟨9⟩, ⟨4⟩, ⟨7⟩, ⟨2⟩] := by
    rw [← toOption_eq_some_iff]
    decide +kernel
  have hg : meetingWays.Rooted :=
    .of_reachable ⟨by decide, by decide⟩ (by rfl) (by decide) hfound (by decide)
  have hg' : meetingWaysAgain.Rooted :=
    .of_reachable ⟨by decide, by decide⟩ (by rfl) (by decide) hfound' (by decide)
  have hlen : ∀ text, meetingWays.fullPrint = .ok text → text.length ≤ 13 := by
    intro text h
    cases hprint.symm.trans h
    decide
  have hlen' : ∀ text, meetingWaysAgain.fullPrint = .ok text → text.length ≤ 13 := by
    intro text h
    cases hprint'.symm.trans h
    decide
  obtain ⟨s, hs⟩ := fingerprint_eq_ok_iff.2 ⟨_, hprint, rfl⟩
  obtain ⟨s', hs'⟩ := fingerprint_eq_ok_iff.2 ⟨_, hprint', rfl⟩
  exact ⟨hprint, hprint', (fingerprint_identifies_shape hg hg' hlen hlen').2.1 ⟨_, s, s', hs, hs'⟩⟩

end Graph

end Structurer
