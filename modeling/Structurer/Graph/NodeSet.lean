/-
**Node identifiers and sets of them.**

A node is known by a serial number that is never used again in its graph.  The predecessors of a
node form a finite set, kept as a list in ascending order, so that equal sets are equal lists and
every walk over a set has a fixed order.
-/

namespace Structurer

/-- The identifier of a node: its rank among all nodes ever added to its graph. -/
structure NodeId where
  serial : Nat
  deriving DecidableEq, Repr, Inhabited

def NodeId.title (n : NodeId) : String := "n" ++ toString n.serial

/-- A finite set of nodes, in ascending order. -/
structure NodeSet where
  toList : List NodeId
  ascending : toList.Pairwise fun a b => a.serial < b.serial

namespace NodeSet

instance : DecidableEq NodeSet := fun a b =>
  match a, b with
  | ⟨l, _⟩, ⟨l', _⟩ =>
      if h : l = l' then isTrue (by subst h; rfl)
      else isFalse (fun e => h (congrArg NodeSet.toList e))

instance : Membership NodeId NodeSet := ⟨fun s n => n ∈ s.toList⟩

instance (n : NodeId) (s : NodeSet) : Decidable (n ∈ s) := inferInstanceAs (Decidable (n ∈ s.toList))

def empty : NodeSet := ⟨[], List.Pairwise.nil⟩

def contains (s : NodeSet) (n : NodeId) : Bool := s.toList.contains n

def size (s : NodeSet) : Nat := s.toList.length

/-! ### Insertion and removal -/

/-- An element put at its place in an ascending list, unless it is there already. -/
def insertAscending (n : NodeId) : List NodeId → List NodeId
  | [] => [n]
  | m :: l =>
      if n.serial < m.serial then n :: m :: l
      else if n = m then m :: l
      else m :: insertAscending n l

theorem mem_insertAscending {n a : NodeId} {l : List NodeId} :
    a ∈ insertAscending n l ↔ a = n ∨ a ∈ l := by
  induction l with
  | nil => simp [insertAscending]
  | cons m l ih =>
      simp only [insertAscending]
      split
      · simp
      · split
        · next h => subst h; simp
        · simp only [List.mem_cons, ih]
          constructor
          · rintro (h | h | h)
            · exact Or.inr (Or.inl h)
            · exact Or.inl h
            · exact Or.inr (Or.inr h)
          · rintro (h | h | h)
            · exact Or.inr (Or.inl h)
            · exact Or.inl h
            · exact Or.inr (Or.inr h)

theorem pairwise_insertAscending {n : NodeId} {l : List NodeId}
    (h : l.Pairwise fun a b => a.serial < b.serial) :
    (insertAscending n l).Pairwise fun a b => a.serial < b.serial := by
  induction l with
  | nil => simp [insertAscending]
  | cons m l ih =>
      obtain ⟨hm, hl⟩ := List.pairwise_cons.1 h
      simp only [insertAscending]
      split
      · next hlt =>
          refine List.pairwise_cons.2 ⟨?_, h⟩
          intro a ha
          rcases List.mem_cons.1 ha with rfl | ha
          · exact hlt
          · exact Nat.lt_trans hlt (hm a ha)
      · split
        · exact h
        · next hlt hne =>
            refine List.pairwise_cons.2 ⟨?_, ih hl⟩
            intro a ha
            rcases mem_insertAscending.1 ha with rfl | ha
            · refine Nat.lt_of_le_of_ne (Nat.le_of_not_lt hlt) ?_
              intro hs
              exact hne (by cases a; cases m; simp_all)
            · exact hm a ha

def insert (s : NodeSet) (n : NodeId) : NodeSet :=
  ⟨insertAscending n s.toList, pairwise_insertAscending s.ascending⟩

def erase (s : NodeSet) (n : NodeId) : NodeSet :=
  ⟨s.toList.filter (· ≠ n), s.ascending.filter _⟩

def ofList (l : List NodeId) : NodeSet := l.foldl insert empty

@[simp] theorem mem_insert {s : NodeSet} {n a : NodeId} : a ∈ s.insert n ↔ a = n ∨ a ∈ s :=
  mem_insertAscending

@[simp] theorem mem_erase {s : NodeSet} {n a : NodeId} : a ∈ s.erase n ↔ a ∈ s ∧ a ≠ n := by
  show a ∈ s.toList.filter (· ≠ n) ↔ a ∈ s.toList ∧ a ≠ n
  simp

theorem mem_foldl_insert {l : List NodeId} {s : NodeSet} {a : NodeId} :
    a ∈ l.foldl insert s ↔ a ∈ l ∨ a ∈ s := by
  induction l generalizing s with
  | nil => simp
  | cons n l ih =>
      rw [List.foldl_cons, ih, mem_insert, List.mem_cons]
      constructor
      · rintro (h | h | h)
        · exact Or.inl (Or.inr h)
        · exact Or.inl (Or.inl h)
        · exact Or.inr h
      · rintro ((h | h) | h)
        · exact Or.inr (Or.inl h)
        · exact Or.inl h
        · exact Or.inr (Or.inr h)

@[simp] theorem mem_ofList {l : List NodeId} {a : NodeId} : a ∈ ofList l ↔ a ∈ l := by
  have h : a ∉ empty := List.not_mem_nil
  rw [ofList, mem_foldl_insert]
  exact ⟨fun ha => ha.resolve_right h, Or.inl⟩

end NodeSet

end Structurer
