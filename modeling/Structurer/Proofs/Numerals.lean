/-
**Literals.**

An integer is written in decimal, and the literal reads back as the integer.  No literal of a number,
integer or not, has a blank in it.
-/

import Structurer.Number.Decimal
import Structurer.Text.Blank

namespace Structurer

open Text List

variable {c : Char} {cs : List Char}

/-- No character is blank. -/
def Text.Solid (cs : List Char) : Prop := ∀ c ∈ cs, isBlank c = false

instance (cs : List Char) : Decidable (Solid cs) :=
  decidable_of_iff (cs.all (!isBlank ·) = true) (by simp [Solid])

theorem Text.Solid.cons {c : Char} (hc : isBlank c = false) (h : Solid cs) : Solid (c :: cs) :=
  forall_mem_cons.2 ⟨hc, h⟩

theorem Text.Solid.append {ds : List Char} (hcs : Solid cs) (hds : Solid ds) : Solid (cs ++ ds) :=
  forall_mem_append.2 ⟨hcs, hds⟩

namespace Number

theorem digit?_eq_some (h : c.isDigit = true) : digit? c = some (c.toNat - '0'.toNat) := by
  have hbounds : '0' ≤ c ∧ c ≤ '9' := by simpa [Char.isDigit, Char.le_def] using h
  rw [digit?, if_pos hbounds]

theorem digitsFrom?_eq_some (h : ∀ c ∈ cs, c.isDigit = true) (n : Nat) :
    digitsFrom? n cs = some (Nat.ofDigitChars 10 cs n) := by
  induction cs generalizing n with
  | nil => rfl
  | cons c cs ih =>
    rw [digitsFrom?, digit?_eq_some (h c (.head _)), Nat.ofDigitChars_cons]
    exact ih (fun c' hc' => h c' (.tail _ hc')) _

theorem natural?_eq_some (hne : cs ≠ []) (h : ∀ c ∈ cs, c.isDigit = true) :
    natural? cs = some (Nat.ofDigitChars 10 cs 0) := by
  cases cs with
  | nil => exact absurd rfl hne
  | cons c cs => exact digitsFrom?_eq_some h 0

theorem isDigit_of_mem_toDigits {n : Nat} (h : c ∈ Nat.toDigits 10 n) : c.isDigit = true :=
  Nat.isDigit_of_mem_toDigits (by decide) (by decide) h

theorem isBlank_of_isDigit (h : c.isDigit = true) : Text.isBlank c = false := by
  have hbounds : 48 ≤ c.toNat ∧ c.toNat ≤ 57 := by
    simpa [Char.isDigit, UInt32.le_iff_toNat_le] using h
  simp only [Text.isBlank, Bool.or_eq_false_iff, Bool.and_eq_false_iff, decide_eq_false_iff_not,
    beq_eq_false_iff_ne]
  omega

@[simp] theorem natural?_toDigits (n : Nat) : natural? (Nat.toDigits 10 n) = some n := by
  rw [natural?_eq_some Nat.toDigits_ne_nil fun _ => isDigit_of_mem_toDigits,
    Nat.ofDigitChars_toDigits (by decide) (by decide)]

theorem integer?_digits {n : Nat} (h : ∀ c ∈ cs, c.isDigit = true) (hn : natural? cs = some n) :
    integer? cs = some (n : Int) := by
  cases cs with
  | nil => cases hn
  | cons c cs =>
    have hc := h c (.head _)
    have hminus : c ≠ '-' := by rintro rfl; exact absurd hc (by decide)
    have hplus : c ≠ '+' := by rintro rfl; exact absurd hc (by decide)
    simp [integer?, hminus, hplus, hn]

theorem toList_toString_int (z : Int) : (toString z).toList =
    if z < 0 then '-' :: Nat.toDigits 10 z.natAbs else Nat.toDigits 10 z.natAbs := by
  cases z with
  | ofNat n =>
    have hn : ¬ Int.ofNat n < 0 := by simp
    rw [if_neg hn]
    simp [Int.toString_eq_repr, Int.repr, Nat.repr]
  | negSucc n =>
    rw [if_pos (Int.negSucc_lt_zero n)]
    simp [Int.toString_eq_repr, Int.repr, Nat.repr]

theorem integer?_toString (z : Int) : integer? (toString z).toList = some z := by
  rw [toList_toString_int]
  split
  · next h =>
      simp only [integer?, natural?_toDigits]
      show some (-(z.natAbs : Int)) = some z
      congr 1
      omega
  · next h =>
      rw [integer?_digits (fun _ => isDigit_of_mem_toDigits) (natural?_toDigits _)]
      congr 1
      omega

theorem int32?_toString (v : Int32) : int32? (toString v.toInt).toList = some v := by
  have hrange : Int32.minValue.toInt ≤ v.toInt ∧ v.toInt ≤ Int32.maxValue.toInt :=
    ⟨v.minValue_le_toInt, v.toInt_le⟩
  simp only [int32?, integer?_toString, if_pos hrange, Int32.ofInt_toInt]

theorem int64?_toString (v : Int64) : int64? (toString v.toInt).toList = some v := by
  have hrange : Int64.minValue.toInt ≤ v.toInt ∧ v.toInt ≤ Int64.maxValue.toInt :=
    ⟨v.minValue_le_toInt, v.toInt_le⟩
  simp only [int64?, integer?_toString, if_pos hrange, Int64.ofInt_toInt]

/-! ### Literals have no blanks -/

theorem solid_digits (h : ∀ c ∈ cs, c.isDigit = true) : Solid cs :=
  fun c hc => isBlank_of_isDigit (h c hc)

theorem solid_natural? {n : Nat} (h : natural? cs = some n) : Solid cs := by
  have hdigits : ∀ (n k : Nat) (cs : List Char), digitsFrom? n cs = some k →
      ∀ c ∈ cs, c.isDigit = true := by
    intro n k cs
    induction cs generalizing n with
    | nil => simp
    | cons c cs ih =>
      intro h
      rw [digitsFrom?] at h
      split at h
      next d hd =>
        refine forall_mem_cons.2 ⟨?_, ih _ h⟩
        rw [digit?] at hd
        split at hd
        next hc => simpa [Char.isDigit, Char.le_def] using hc
        next => cases hd
      next => cases h
  cases cs with
  | nil => cases h
  | cons c cs => exact solid_digits (hdigits _ _ _ h)

theorem solid_integer? {z : Int} (h : integer? cs = some z) : Solid cs := by
  unfold integer? at h
  split at h
  all_goals
    obtain ⟨_, hz, -⟩ := Option.map_eq_some_iff.1 h
    obtain ⟨n, hn, -⟩ := Option.bind_eq_some_iff.1 hz
  · exact (solid_natural? hn).cons (by decide)
  · exact (solid_natural? hn).cons (by decide)
  · exact solid_natural? hn

theorem solid_decimal {d : Decimal} (h : Decimal.ofChars? cs = some d) : Solid cs := by
  have hexponent : ∀ {cs : List Char} {e : Int}, Decimal.exponent? cs = some e → Solid cs := by
    intro cs e h
    cases cs with
    | nil => simp [Solid]
    | cons c cs =>
      rw [Decimal.exponent?] at h
      split at h
      next hc => exact (solid_integer? h).cons (by rcases hc with rfl | rfl <;> decide)
      next => cases h
  have htake : ∀ cs : List Char, Solid (cs.takeWhile (·.isDigit)) := fun cs =>
    solid_digits fun c hc => all_eq_true.1 all_takeWhile c hc
  rw [← takeWhile_append_dropWhile (p := (·.isDigit)) (l := cs)]
  refine (htake cs).append ?_
  unfold Decimal.ofChars? at h
  dsimp only at h
  split at h
  next n e hn he =>
    split at he
    next rest hrest =>
      rw [hrest, ← takeWhile_append_dropWhile (p := (·.isDigit)) (l := rest)]
      exact ((htake rest).append (hexponent he)).cons (by decide)
    next => exact hexponent he
  next => cases h

theorem solid_ofChars? {f : Format} {v : Binary f} (h : Binary.ofChars? f cs = some v) :
    Solid cs := by
  have hlower : ∀ c : Char, isBlank c = true → c.toLower = c := by
    intro c hc
    refine dif_neg ?_
    rintro ⟨hA, hZ⟩
    have hlow : 65 ≤ c.toNat := UInt32.le_iff_toNat_le.1 hA
    have hhigh : c.toNat ≤ 90 := UInt32.le_iff_toNat_le.1 hZ
    simp only [isBlank, Bool.or_eq_true, Bool.and_eq_true, decide_eq_true_eq, beq_iff_eq] at hc
    omega
  have hunsigned : ∀ {negative : Bool} {cs : List Char},
      Binary.ofUnsigned? f negative cs = some v → Solid cs := by
    intro negative cs h
    have hname : ∀ name : String, Solid name.toList → String.ofList (cs.map Char.toLower) = name →
        Solid cs := by
      rintro _ hsolid rfl c hc
      rw [String.toList_ofList] at hsolid
      cases hblank : isBlank c with
      | false => rfl
      | true =>
        have hc' := hsolid _ (mem_map_of_mem hc)
        rwa [hlower c hblank, hblank] at hc'
    unfold Binary.ofUnsigned? at h
    split at h
    next heq => exact hname _ (by decide) heq
    next heq => exact hname _ (by decide) heq
    next heq => exact hname _ (by decide) heq
    next =>
      obtain ⟨d, hd, -⟩ := Option.map_eq_some_iff.1 h
      exact solid_decimal hd
  unfold Binary.ofChars? at h
  split at h
  · exact (hunsigned h).cons (by decide)
  · exact (hunsigned h).cons (by decide)
  · exact hunsigned h

theorem solid_int32? {v : Int32} (h : int32? cs = some v) : Solid cs := by
  unfold int32? at h
  split at h
  next hz => exact solid_integer? hz
  next => cases h

theorem solid_int64? {v : Int64} (h : int64? cs = some v) : Solid cs := by
  unfold int64? at h
  split at h
  next hz => exact solid_integer? hz
  next => cases h

end Number

end Structurer
