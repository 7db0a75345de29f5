/-
**The registry of variables never aliases.**

A new registry is asked for variables and for slots in any order.  Whatever was asked, every
variable is found under its own number and its own name and never changes again, a new variable is
none of those handed out before, and a slot is shared exactly by the requests for its depth and
type, even if the names that come to mind for it were taken by others.  The tables that are kept hold
what `Locals` has, so this is shown of `Locals` first; then numbers are cut to words, which makes no
difference as long as they fit.
-/

import Mathlib.Data.List.Induction
import Structurer.Proofs.Growth
import Structurer.Proofs.Upkeep
import Structurer.Registry

namespace Structurer

open List

namespace Locals

/-- What a registry is asked for: a new variable, or the slot of a depth and type. -/
inductive Request where
  | add (name : String) (t : ValueType)
  | slot (depth : Nat) (t : ValueType)

def Request.run (ls : Locals) : Request → LocalId × Locals
  | .add name t => ls.add name t
  | .slot depth t => ls.stackSlot depth t

def Request.type : Request → ValueType
  | .add _ t | .slot _ t => t

def served (rs : List Request) : Locals := rs.foldl (fun ls r => (r.run ls).2) empty

def Answered (rs : List Request) (r : Request) (id : LocalId) : Prop :=
  ∃ before, before ++ [r] <+: rs ∧ (r.run (served before)).1 = id

variable {ls : Locals} {rs before : List Request} {r : Request} {name : String} {t u : ValueType}
  {depth depth' : Nat} {id : LocalId}

/-! ### One request -/

theorem Request.extends (ls : Locals) (r : Request) : ls.Extends (r.run ls).2 := by
  cases r with
  | add name t => exact extends_add ls name t
  | slot depth t => exact extends_stackSlot ls depth t

theorem Request.continues (ls : Locals) (r : Request) : ls.Continues (r.run ls).2 := by
  cases r with
  | add name t => exact continues_add ls name t
  | slot depth t => exact continues_stackSlot ls depth t

theorem Request.valid (h : ls.Valid) (r : Request) : (r.run ls).2.Valid := by
  cases r with
  | add name t => exact h.add name t
  | slot depth t => exact h.stackSlot depth t

/-! ### Rows of requests -/

theorem served_concat : served (rs ++ [r]) = (r.run (served rs)).2 := by
  rw [served, foldl_append]
  rfl

theorem served_valid (rs : List Request) : (served rs).Valid := by
  induction rs using List.reverseRecOn with
  | nil => exact ⟨fun _ h => absurd h not_mem_nil, fun _ h => absurd h not_mem_nil⟩
  | append_singleton rs r ih =>
    rw [served_concat]
    exact r.valid ih

theorem served_mono (h : before <+: rs) :
    (served before).Extends (served rs) ∧ (served before).Continues (served rs) := by
  obtain ⟨rest, rfl⟩ := h
  induction rest using List.reverseRecOn with
  | nil =>
    rw [append_nil]
    exact ⟨.refl _, .refl _⟩
  | append_singleton rest r ih =>
    rw [← append_assoc, served_concat]
    exact ⟨ih.1.trans (r.extends _), ih.2.trans (r.continues _)⟩

theorem served_names (rs : List Request) : (served rs).names.Nodup :=
  (served_mono nil_prefix).2.distinct nodup_nil

theorem slot?_of_answered (h : Answered rs (.slot depth t) id) :
    (served rs).slot? depth t = some id := by
  obtain ⟨before, hpre, rfl⟩ := h
  have hslot := slot?_stackSlot (served before) depth t
  rw [← Request.run.eq_2, ← served_concat] at hslot
  exact (served_mono hpre).1.slot hslot

theorem added_of_answered (h : Answered rs (.add name t) id) :
    (∃ v, (served rs).get? id = some v ∧ v.valueType = t) ∧ ¬ (served rs).IsSlot id := by
  obtain ⟨before, hpre, rfl⟩ := h
  have hget := get?_add_self (served before) name t
  have hslot := (served_valid before).not_isSlot_add name t
  have hmono := (served_mono hpre).1
  rw [served_concat] at hmono
  exact ⟨⟨_, hmono.get hget, rfl⟩, fun hs => hslot (hmono.old hget hs)⟩

theorem index_lt_of_answered (h : Answered rs r id) : id.index < (served rs).size := by
  have hget : ∃ v, (served rs).get? id = some v ∧ v.valueType = r.type := by
    cases r with
    | add name t => exact (added_of_answered h).1
    | slot depth t => exact (served_valid rs).get?_of_slot? (slot?_of_answered h)
  obtain ⟨v, hv, -⟩ := hget
  exact get?_eq_some_lt hv

theorem slots_of_answered {id' : LocalId} (h : Answered rs (.slot depth t) id)
    (h' : Answered rs (.slot depth' u) id') : id = id' ↔ depth = depth' ∧ t = u := by
  have hslot := slot?_of_answered h
  have hslot' := slot?_of_answered h'
  constructor
  · rintro rfl
    -- one variable has one type, and no two depths share it
    obtain ⟨v, hv, rfl⟩ := (served_valid rs).get?_of_slot? hslot
    obtain ⟨w, hw, rfl⟩ := (served_valid rs).get?_of_slot? hslot'
    rw [hv] at hw
    cases hw
    exact ⟨(served_valid rs).slot?_inj hslot hslot', rfl⟩
  · rintro ⟨rfl, rfl⟩
    rw [hslot] at hslot'
    exact Option.some.inj hslot'

end Locals

/-! ### The tables -/

def LocalId.word (l : LocalId) : UInt32 := .ofNat l.index

namespace Registry

open Locals (Request variant)

def run (r : Registry) : Request → UInt32 × Registry
  | .add name t => r.add name t
  | .slot depth t => r.stackSlot depth t

def served (rs : List Request) : Registry := rs.foldl (fun r q => (r.run q).2) empty

def Answered (rs : List Request) (q : Request) (id : UInt32) : Prop :=
  ∃ before, before ++ [q] <+: rs ∧ ((served before).run q).1 = id

/-- The three tables hold the variables, their names and the slots. -/
structure Keeps (r : Registry) (ls : Locals) : Prop where
  entries : r.entries = ls.entries
  byName : ∀ name, r.lookup name = (ls.lookup name).map LocalId.word
  stackSlots : ∀ depth t, r.stackSlots.lookup (depth, t) = (ls.slot? depth t).map LocalId.word

variable {r : Registry} {ls : Locals} {rs : List Request} {q : Request} {id : UInt32}

namespace Keeps

theorem size_eq (h : r.Keeps ls) : r.size = ls.size := by rw [size, h.entries]; rfl

theorem freeName_eq (h : r.Keeps ls) (name : String) : r.freeName name = ls.freeName name := by
  cases hfree : (List.range (ls.size + 1)).find? fun k => (ls.lookup (variant name k)).isNone <;>
    simp [freeName, Locals.freeName, h.size_eq, h.byName, hfree]

theorem add (h : r.Keeps ls) (name : String) (t : ValueType) :
    (r.add name t).1 = (ls.add name t).1.word ∧ (r.add name t).2.Keeps (ls.add name t).2 := by
  have hid : UInt32.ofNat r.size = (⟨ls.size⟩ : LocalId).word := by rw [h.size_eq]; rfl
  refine ⟨hid, ?_, fun name' => ?_, h.stackSlots⟩
  · show r.entries.push ⟨r.freeName name, t⟩ = _
    rw [h.entries, h.freeName_eq]
    rfl
  · show List.lookup name' ((r.freeName name, UInt32.ofNat r.size) :: r.byName) = _
    rw [hid, h.freeName_eq, Locals.lookup_add, List.lookup_cons]
    cases heq : name' == ls.freeName name with
    | true => simp [eq_of_beq heq]
    | false =>
      rw [if_neg (ne_of_beq_false heq)]
      exact h.byName name'

theorem stackSlot (h : r.Keeps ls) (depth : Nat) (t : ValueType) :
    (r.stackSlot depth t).1 = (ls.stackSlot depth t).1.word ∧
      (r.stackSlot depth t).2.Keeps (ls.stackSlot depth t).2 := by
  have hslot := h.stackSlots depth t
  unfold Registry.stackSlot Locals.stackSlot
  cases hs : ls.slot? depth t with
  | some l =>
    rw [hs, Option.map_some] at hslot
    rw [hslot]
    exact ⟨rfl, h⟩
  | none =>
    rw [hs, Option.map_none] at hslot
    rw [hslot]
    obtain ⟨hid, hadd⟩ := h.add ("s" ++ toString depth ++ t.name) t
    refine ⟨hid, hadd.entries, hadd.byName, fun depth' u => ?_⟩
    show List.lookup (depth', u) (((depth, t), (r.add _ t).1) :: (r.add _ t).2.stackSlots) = _
    rw [hid, List.lookup_cons, hadd.stackSlots]
    show _ = Option.map _ (Option.map _ (List.find? _ (_ :: _)))
    rw [List.find?_cons]
    by_cases hk : depth = depth' ∧ t = u
    · obtain ⟨rfl, rfl⟩ := hk
      simp
    · have hne : ((depth', u) == (depth, t)) = false :=
        beq_false_of_ne fun he => hk ⟨(Prod.mk.inj he).1.symm, (Prod.mk.inj he).2.symm⟩
      have hne' : (depth == depth' && t == u) = false := by
        rw [Bool.eq_false_iff]
        intro he
        rw [Bool.and_eq_true, beq_iff_eq, beq_iff_eq] at he
        exact hk he
      simp only [hne, hne']
      rfl

/-- **The three tables stay in step.** -/
theorem run (h : r.Keeps ls) (q : Request) :
    (r.run q).1 = (q.run ls).1.word ∧ (r.run q).2.Keeps (q.run ls).2 := by
  cases q with
  | add name t => exact h.add name t
  | slot depth t => exact h.stackSlot depth t

end Keeps

/-! ### Rows of requests to the tables -/

theorem served_concat : served (rs ++ [q]) = ((served rs).run q).2 := by
  rw [served, foldl_append]
  rfl

theorem keeps_served (rs : List Request) : (served rs).Keeps (Locals.served rs) := by
  induction rs using List.reverseRecOn with
  | nil =>
    refine ⟨rfl, fun name => ?_, fun _ _ => rfl⟩
    simp [served, Locals.served, empty, Locals.empty, lookup, Locals.lookup]
  | append_singleton rs q ih =>
    rw [served_concat, Locals.served_concat]
    exact (ih.run q).2

theorem answered_iff : Answered rs q id ↔ ∃ l, Locals.Answered rs q l ∧ id = l.word := by
  constructor
  · rintro ⟨before, hpre, rfl⟩
    exact ⟨_, ⟨before, hpre, rfl⟩, ((keeps_served before).run q).1⟩
  · rintro ⟨_, ⟨before, hpre, rfl⟩, rfl⟩
    exact ⟨before, hpre, ((keeps_served before).run q).1⟩

theorem toNat_word {l : LocalId} (h : l.index < 4294967296) : l.word.toNat = l.index :=
  UInt32.toNat_ofNat_of_lt' h

/-- **The registry never aliases.**  A new registry serves any row of requests that leaves fewer than
2³¹ variables, so that numbers and suffixes fit in 32 bits.  Then numbers and names lead to their
variables and to nothing else, no variable has changed, the search for a free name ends, a new variable
has a new number and the type asked for, and a slot is shared by the requests for one depth and type and
by no other request. -/
theorem served_never_aliases (rs : List Request) (few : (served rs).size < 2147483648) :
    (∀ id, ((served rs).get? id).isSome ↔ id.toNat < (served rs).size) ∧
    ((served rs).entries.toList.map (·.name)).Nodup ∧
    (∀ name id, (served rs).lookup name = some id ↔
      id.toNat < (served rs).size ∧ (served rs).name id = name) ∧
    (∀ before, before <+: rs → (served before).entries.toList <+: (served rs).entries.toList) ∧
    (∀ name, ∃ k ≤ (served rs).size, (served rs).freeName name = variant name k ∧
      variant name k ∉ (served rs).entries.toList.map (·.name) ∧
      ∀ j < k, variant name j ∈ (served rs).entries.toList.map (·.name)) ∧
    (∀ name t id, ((served rs).run (.add name t)).1 = id → id.toNat = (served rs).size ∧
      (served (rs ++ [.add name t])).get? id = some ⟨(served rs).freeName name, t⟩ ∧
      ∀ q id', Answered rs q id' → id' ≠ id) ∧
    (∀ depth t id, Answered rs (.slot depth t) id →
      (∃ v, (served rs).get? id = some v ∧ v.valueType = t) ∧
      (∀ depth' u id', Answered rs (.slot depth' u) id' → (id = id' ↔ depth = depth' ∧ t = u)) ∧
      ∀ name u id', Answered rs (.add name u) id' → id ≠ id') := by
  have hkeeps := keeps_served rs
  have hnames := Locals.served_names rs
  have hsize := hkeeps.size_eq
  have hname : ∀ id, (served rs).name id = (Locals.served rs).name ⟨id.toNat⟩ := by
    intro id
    rw [Registry.name, get?, hkeeps.entries]
    rfl
  have hget : ∀ l : LocalId, l.index < (Locals.served rs).size →
      (served rs).get? l.word = (Locals.served rs).get? l := by
    intro l hl
    rw [get?, hkeeps.entries, toNat_word (by omega)]
    rfl
  have hfit : ∀ {q l}, Locals.Answered rs q l → l.word.toNat = l.index := fun h =>
    toNat_word (by have := Locals.index_lt_of_answered h; omega)
  have hinj : ∀ {q q' l l'}, Locals.Answered rs q l → Locals.Answered rs q' l' →
      (l.word = l'.word ↔ l = l') := by
    intro q q' l l' h h'
    refine ⟨fun he => ?_, congrArg _⟩
    have hn := congrArg UInt32.toNat he
    rw [hfit h, hfit h'] at hn
    exact congrArg LocalId.mk hn
  refine ⟨fun id => by simp [get?, size], ?_, fun name id => ?_, fun before h => ?_, fun name => ?_, ?_, ?_⟩
  · rw [hkeeps.entries]
    exact hnames
  · rw [hkeeps.byName, hsize, hname, Option.map_eq_some_iff]
    constructor
    · rintro ⟨l, hl, rfl⟩
      have hlt := (Locals.name_of_lookup hl).1
      rw [toNat_word (by omega)]
      exact Locals.name_of_lookup hl
    · rintro ⟨hlt, rfl⟩
      exact ⟨⟨id.toNat⟩, Locals.lookup_name hnames hlt, UInt32.ofNat_toNat⟩
  · rw [hkeeps.entries, (keeps_served before).entries]
    exact (Locals.served_mono h).2.earlier
  · rw [hkeeps.freeName_eq, hkeeps.entries, hsize]
    exact (Locals.served rs).freeName_spec name
  · rintro name t _ rfl
    have hid : ((served rs).run (.add name t)).1.toNat = (Locals.served rs).size := by
      rw [(hkeeps.run _).1]
      exact toNat_word (l := ⟨_⟩) (by show (Locals.served rs).size < _; omega)
    refine ⟨hid.trans hsize.symm, ?_, fun q id' h he => ?_⟩
    · rw [get?, hid, (keeps_served _).entries, Locals.served_concat, hkeeps.freeName_eq]
      exact Locals.get?_add_self (Locals.served rs) name t
    · obtain ⟨l, hl, rfl⟩ := answered_iff.1 h
      have hlt := Locals.index_lt_of_answered hl
      rw [← he, hfit hl] at hid
      omega
  · intro depth t id h
    obtain ⟨l, hl, rfl⟩ := answered_iff.1 h
    have hlt := Locals.index_lt_of_answered hl
    refine ⟨?_, fun depth' u id' h' => ?_, fun name u id' h' => ?_⟩
    · rw [hget l hlt]
      exact (Locals.served_valid rs).get?_of_slot? (Locals.slot?_of_answered hl)
    · obtain ⟨l', hl', rfl⟩ := answered_iff.1 h'
      rw [hinj hl hl']
      exact Locals.slots_of_answered hl hl'
    · obtain ⟨l', hl', rfl⟩ := answered_iff.1 h'
      rw [ne_eq, hinj hl hl']
      rintro rfl
      exact (Locals.added_of_answered hl').2 (Locals.isSlot_of_slot? (Locals.slot?_of_answered hl))

def takenNames : List Request :=
  [.add "s0i32" .f64, .slot 0 .i32, .add "s0i32_1" .i32, .slot 0 .i32]

theorem served_never_aliases_takenNames : (served takenNames).size < 2147483648 ∧
    (served takenNames).byName = [("s0i32_1_1", 2), ("s0i32_1", 1), ("s0i32", 0)] ∧
    ((served takenNames).entries.toList.map (·.name)).Nodup ∧
    Answered takenNames (.slot 0 .i32) 1 ∧
    ∀ name t id, Answered takenNames (.add name t) id → 1 ≠ id := by
  have few : (served takenNames).size < 2147483648 := by decide +kernel
  have hslot : Answered takenNames (.slot 0 .i32) 1 :=
    ⟨[.add "s0i32" .f64], by simp [takenNames], by decide +kernel⟩
  obtain ⟨_, hnames, _, _, _, _, hslots⟩ := served_never_aliases takenNames few
  exact ⟨few, by decide +kernel, hnames, hslot, (hslots _ _ _ hslot).2.2⟩

end Registry

end Structurer
