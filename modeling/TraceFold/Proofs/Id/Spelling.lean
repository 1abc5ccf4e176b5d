/-
  TraceFold.Proofs.Id.Spelling

  The texts that name a node.  A node has many: blanks may stand around its letter and
  number, the letter is in either case, a plus sign may precede the number and zeros may
  lead it.  These are all (`NodeId.ofText_eq_ok_iff`), and the text that a node is written
  with is one of them if its number fits an identifier.
-/

import Mathlib.Algebra.GroupWithZero.Nat
import Mathlib.Data.List.TakeWhile
import TraceFold.Id.Text

namespace TraceFold

/-! ## Trimming -/

namespace Text

variable {cs : List Char} {c : Char}

/-- What is trimmed off is blank. -/
theorem exists_trim (cs : List Char) : ∃ left right, cs = left ++ trim cs ++ right ∧
    (∀ c ∈ left, isBlank c) ∧ ∀ c ∈ right, isBlank c := by
  refine ⟨cs.takeWhile isBlank,
    ((cs.dropWhile isBlank).reverse.takeWhile isBlank).reverse, ?_,
    fun c hc => List.all_eq_true.1 List.all_takeWhile c hc, fun c hc => ?_⟩
  · rw [trim, List.append_assoc, ← List.reverse_append, List.takeWhile_append_dropWhile,
      List.reverse_reverse, List.takeWhile_append_dropWhile]
  · exact List.all_eq_true.1 List.all_takeWhile c (List.mem_reverse.1 hc)

/-- Trimming takes away nothing but blanks. -/
theorem mem_trim (hc : isBlank c = false) : c ∈ trim cs ↔ c ∈ cs := by
  obtain ⟨left, right, hcs, hleft, hright⟩ := exists_trim cs
  refine ⟨fun h => ?_, fun h => ?_⟩
  · rw [hcs]
    simp [h]
  · rw [hcs] at h
    rcases List.mem_append.1 h with h | h
    · rcases List.mem_append.1 h with h | h
      · rw [hleft c h] at hc
        cases hc
      · exact h
    · rw [hright c h] at hc
      cases hc

/-- A text without blanks loses nothing. -/
theorem trim_eq_self (hcs : ∀ c ∈ cs, isBlank c = false) : trim cs = cs := by
  obtain ⟨left, right, htrim, hleft, hright⟩ := exists_trim cs
  -- blanks at an end would be blanks of the text
  have hnil : ∀ side : List Char, (∀ c ∈ side, isBlank c) → (∀ c ∈ side, c ∈ cs) → side = [] := by
    intro side hblank hmem
    refine List.eq_nil_iff_forall_not_mem.2 fun c hc => ?_
    have hc' := hcs c (hmem c hc)
    rw [hblank c hc] at hc'
    cases hc'
  obtain rfl := hnil left hleft fun c hc => by rw [htrim]; simp [hc]
  obtain rfl := hnil right hright fun c hc => by rw [htrim]; simp [hc]
  simpa using htrim.symm

/-- A digit is no blank. -/
theorem isBlank_of_isDigit (hc : c.isDigit) : isBlank c = false := by
  have hrange := Char.isDigit_iff_toNat.1 hc
  simp only [Char.reduceToNat] at hrange
  simp only [isBlank, blankRanges, List.any_cons, List.any_nil, Bool.or_false, Bool.or_eq_false_iff,
    Bool.and_eq_false_iff, decide_eq_false_iff_not]
  omega

end Text

/-! ## The case of a letter -/

namespace Text

theorem toNat_toUpper (c : Char) :
    c.toUpper.toNat = if 97 ≤ c.toNat ∧ c.toNat ≤ 122 then c.toNat - 32 else c.toNat := by
  have hrange : ('a'.val ≤ c.val ∧ c.val ≤ 'z'.val) ↔ 97 ≤ c.toNat ∧ c.toNat ≤ 122 := by
    simp [UInt32.le_iff_toNat_le, Char.toNat_val]
  have hshift : ('A'.val - 'a'.val).toNat = 2 ^ 32 - 32 := by decide
  unfold Char.toUpper
  split
  · rename_i h
    have hsmall := hrange.1 h
    rw [if_pos hsmall]
    simp only [Char.toNat_mk, UInt32.toNat_add, Char.toNat_val, hshift]
    omega
  · rename_i h
    rw [if_neg fun hsmall => h (hrange.2 hsmall)]

/-- A letter has two characters, 32 apart. -/
theorem toUpper_eq_iff {c upper lower : Char} (hupper : 65 ≤ upper.toNat ∧ upper.toNat ≤ 90)
    (hlower : lower.toNat = upper.toNat + 32) :
    c.toUpper = upper ↔ c = upper ∨ c = lower := by
  simp only [← Char.toNat_inj, toNat_toUpper]
  split <;> omega

end Text

/-! ## Numbers -/

/-- A run of ASCII digits with a value. -/
structure DigitRun (n : Nat) (cs : List Char) : Prop where
  ne_nil : cs ≠ []
  isDigit : ∀ c ∈ cs, c.isDigit
  value : Nat.ofDigitChars 10 cs 0 = n

/-- The texts of a number of 32 bits: digits, with or without a plus sign. -/
inductive IndexSpelling (n : Nat) : List Char → Prop
  | plain {cs : List Char} (hrun : DigitRun n cs) (hn : n < 2 ^ 32) : IndexSpelling n cs
  | signed {cs : List Char} (hrun : DigitRun n cs) (hn : n < 2 ^ 32) : IndexSpelling n ('+' :: cs)

/-- A run of digits is read as its value, and nothing else is read. -/
theorem ofDigits?_eq_some_iff {n : Nat} {cs : List Char} :
    Text.ofDigits? cs = some n ↔ DigitRun n cs := by
  simp only [Text.ofDigits?, Option.ite_none_right_eq_some, Bool.and_eq_true, Bool.not_eq_true',
    List.isEmpty_eq_false_iff, List.all_eq_true, Option.some.injEq]
  constructor
  · rintro ⟨⟨hne, hdigit⟩, hvalue⟩
    exact ⟨hne, hdigit, hvalue⟩
  · exact fun hrun => ⟨⟨hrun.ne_nil, hrun.isDigit⟩, hrun.value⟩

theorem plus_not_digitRun {n : Nat} {cs : List Char} : ¬DigitRun n ('+' :: cs) := fun hrun =>
  absurd (hrun.isDigit '+' List.mem_cons_self) (by decide)

/-- One plus sign may stand in front of the digits. -/
theorem ofSignedDigits?_eq_some_iff {n : Nat} {cs : List Char} :
    Text.ofSignedDigits? cs = some n ↔
      DigitRun n cs ∨ ∃ rest, cs = '+' :: rest ∧ DigitRun n rest := by
  unfold Text.ofSignedDigits?
  split
  · rename_i rest
    simp [ofDigits?_eq_some_iff, plus_not_digitRun]
  · rename_i hplus
    rw [ofDigits?_eq_some_iff]
    exact ⟨Or.inl, fun h => h.resolve_right fun ⟨rest, hrest, _⟩ => hplus rest hrest⟩

/-- A number is read exactly if it is spelled so, which needs 32 bits at most. -/
theorem indexOfChars?_eq_some_iff {n : Nat} {cs : List Char} :
    indexOfChars? cs = some n ↔ IndexSpelling n cs := by
  have hmax : maxIndex = 2 ^ 32 - 1 := rfl
  simp only [indexOfChars?, Option.filter_eq_some_iff, ofSignedDigits?_eq_some_iff,
    decide_eq_true_eq, hmax]
  refine ⟨?_, ?_⟩
  · rintro ⟨hrun | ⟨rest, rfl, hrun⟩, hn⟩
    · exact .plain hrun (by omega)
    · exact .signed hrun (by omega)
  · intro h
    cases h with
    | plain hrun hn => exact ⟨Or.inl hrun, by omega⟩
    | signed hrun hn => exact ⟨Or.inr ⟨_, rfl, hrun⟩, by omega⟩

/-! ## Nodes -/

/-- The texts of a node without blanks around it: a letter in either case and a number. -/
inductive NodeSpelling : NodeId → List Char → Prop
  | codec {letter : Char} {n : Nat} {cs : List Char} (hletter : letter = 'C' ∨ letter = 'c')
      (hindex : IndexSpelling n cs) : NodeSpelling (.codec ⟨n⟩) (letter :: cs)
  | graph {letter : Char} {n : Nat} {cs : List Char} (hletter : letter = 'G' ∨ letter = 'g')
      (hindex : IndexSpelling n cs) : NodeSpelling (.graph ⟨n⟩) (letter :: cs)

theorem NodeId.ofChars?_eq_some_iff {node : NodeId} {cs : List Char} :
    NodeId.ofChars? cs = some node ↔ NodeSpelling node cs := by
  have hC : ∀ c : Char, c.toUpper = 'C' ↔ c = 'C' ∨ c = 'c' := fun c =>
    Text.toUpper_eq_iff (by decide) (by decide)
  have hG : ∀ c : Char, c.toUpper = 'G' ↔ c = 'G' ∨ c = 'g' := fun c =>
    Text.toUpper_eq_iff (by decide) (by decide)
  refine ⟨fun h => ?_, fun h => ?_⟩
  · unfold NodeId.ofChars? at h
    split at h
    · cases h
    · split at h
      · rename_i hletter
        obtain ⟨n, hn, rfl⟩ := Option.map_eq_some_iff.1 h
        exact .codec ((hC _).1 hletter) (indexOfChars?_eq_some_iff.1 hn)
      · rename_i hletter
        obtain ⟨n, hn, rfl⟩ := Option.map_eq_some_iff.1 h
        exact .graph ((hG _).1 hletter) (indexOfChars?_eq_some_iff.1 hn)
      · cases h
  · cases h with
    | codec hletter hindex =>
      simp [NodeId.ofChars?, (hC _).2 hletter, indexOfChars?_eq_some_iff.2 hindex]
    | graph hletter hindex =>
      simp [NodeId.ofChars?, (hG _).2 hletter, indexOfChars?_eq_some_iff.2 hindex]

/-- A node is read exactly if it is spelled so, blanks around it apart. -/
theorem NodeId.ofText_eq_ok_iff {node : NodeId} {cs : List Char} :
    NodeId.ofText cs = .ok node ↔ NodeSpelling node (Text.trim cs) := by
  rw [← NodeId.ofChars?_eq_some_iff]
  unfold NodeId.ofText
  split <;> rename_i h <;> simp [h]

/-- A text that names no node is told back without the blanks around it. -/
theorem NodeId.ofText_eq_error_iff {e : NodeTextError} {cs : List Char} :
    NodeId.ofText cs = .error e ↔
      (∀ node, ¬NodeSpelling node (Text.trim cs)) ∧ e = ⟨String.ofList (Text.trim cs)⟩ := by
  simp only [← NodeId.ofChars?_eq_some_iff]
  unfold NodeId.ofText
  split <;> rename_i h <;> simp [h, eq_comm]

/-! ## The text of a node -/

/-- The number of a node. -/
def NodeId.index : NodeId → Nat
  | .codec c => c.index
  | .graph g => g.index

theorem IndexSpelling.lt {n : Nat} {cs : List Char} (h : IndexSpelling n cs) : n < 2 ^ 32 := by
  cases h <;> assumption

theorem NodeSpelling.index_lt {node : NodeId} {cs : List Char} (h : NodeSpelling node cs) :
    node.index < 2 ^ 32 := by
  cases h with
  | codec _ hindex => exact hindex.lt
  | graph _ hindex => exact hindex.lt

theorem digitRun_digits (n : Nat) : DigitRun n (Text.digits n) :=
  ofDigits?_eq_some_iff.1 (Text.ofDigits?_digits n)

/-- A node is written as one of its spellings if its number has 32 bits. -/
theorem NodeId.spelling_text_iff (node : NodeId) :
    NodeSpelling node node.text.toList ↔ node.index < 2 ^ 32 := by
  refine ⟨NodeSpelling.index_lt, fun hn => ?_⟩
  cases node with
  | codec c =>
    rw [NodeId.text, CodecId.text, String.toList_ofList]
    exact .codec (Or.inl rfl) (.plain (digitRun_digits _) hn)
  | graph g =>
    rw [NodeId.text, GraphId.text, String.toList_ofList]
    exact .graph (Or.inl rfl) (.plain (digitRun_digits _) hn)

/-- There are no blanks in the text of a node. -/
theorem NodeId.not_blank_of_mem_text {node : NodeId} {c : Char} (hc : c ∈ node.text.toList) :
    Text.isBlank c = false := by
  have hdigits : ∀ n, c ∈ Text.digits n → Text.isBlank c = false := fun n h =>
    Text.isBlank_of_isDigit (Text.isDigit_of_mem_digits h)
  cases node with
  | codec d =>
    rw [NodeId.text, CodecId.text, String.toList_ofList] at hc
    rcases List.mem_cons.1 hc with rfl | hc
    · decide
    · exact hdigits _ hc
  | graph g =>
    rw [NodeId.text, GraphId.text, String.toList_ofList] at hc
    rcases List.mem_cons.1 hc with rfl | hc
    · decide
    · exact hdigits _ hc

end TraceFold
