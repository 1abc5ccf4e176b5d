/-
  TraceFold.Proofs.Id.Text

  Different identifiers have different texts.  A number is read back from its digits; no
  node has a hyphen in its text, so the three parts of a proxy's text are found again by
  cutting it at its hyphens (`EdgeId.text_inj`).
-/

import Mathlib.Data.List.Basic
import TraceFold.Id.Text

namespace TraceFold

namespace Text

/-- Numbers that are written alike are equal. -/
theorem digits_inj {m n : Nat} : digits m = digits n ↔ m = n := by
  refine ⟨fun h => ?_, congrArg digits⟩
  have hread := congrArg ofDigits? h
  rw [ofDigits?_digits, ofDigits?_digits] at hread
  exact Option.some.inj hread

/-- No character but a digit stands in a number. -/
theorem not_mem_digits {n : Nat} {c : Char} (hc : c.isDigit = false) : c ∉ digits n := by
  intro hmem
  rw [isDigit_of_mem_digits hmem] at hc
  cases hc

/-- A text is cut at its first hyphen. -/
theorem hyphen_inj {a a' b b' : List Char} (ha : '-' ∉ a) (ha' : '-' ∉ a')
    (h : a ++ '-' :: b = a' ++ '-' :: b') : a = a' ∧ b = b' := by
  have hcut : ∀ {a b : List Char}, '-' ∉ a → (a ++ '-' :: b).takeWhile (· != '-') = a := by
    intro a b ha
    rw [List.takeWhile_append_of_pos fun c hc => by
      rw [bne_iff_ne]
      rintro rfl
      exact ha hc]
    simp
  have hleft : a = a' := by rw [← hcut (b := b) ha, h, hcut ha']
  subst hleft
  have hright := List.append_cancel_left h
  exact ⟨rfl, (List.cons.inj hright).2⟩

end Text

/-! ## Nodes and streams -/

@[simp] theorem CodecId.toList_text (c : CodecId) : c.text.toList = 'C' :: Text.digits c.index :=
  String.toList_ofList

@[simp] theorem StreamId.toList_text (i : StreamId) : i.text.toList = 'S' :: Text.digits i.index :=
  String.toList_ofList

@[simp] theorem GraphId.toList_text (g : GraphId) : g.text.toList = 'G' :: Text.digits g.index :=
  String.toList_ofList

/-- Streams that are written alike are equal. -/
theorem StreamId.text_inj {i j : StreamId} : i.text = j.text ↔ i = j := by
  refine ⟨fun h => ?_, congrArg StreamId.text⟩
  have hchars := congrArg String.toList h
  simpa [Text.digits_inj] using hchars

theorem GraphId.text_inj {g h : GraphId} : g.text = h.text ↔ g = h := by
  refine ⟨fun heq => ?_, congrArg GraphId.text⟩
  have hchars := congrArg String.toList heq
  simpa [Text.digits_inj] using hchars

/-- The letters tell codecs from graphs, the digits tell the numbers. -/
theorem NodeId.text_inj {n m : NodeId} : n.text = m.text ↔ n = m := by
  refine ⟨fun h => ?_, congrArg NodeId.text⟩
  have hchars := congrArg String.toList h
  cases n with
  | codec c =>
    cases m with
    | codec d => simpa [NodeId.text, Text.digits_inj] using hchars
    | graph g => simp [NodeId.text] at hchars
  | graph g =>
    cases m with
    | codec d => simp [NodeId.text] at hchars
    | graph g' => simpa [NodeId.text, Text.digits_inj] using hchars

/-- No hyphen stands in the text of a node, so one can end it. -/
theorem NodeId.hyphen_not_mem_text (n : NodeId) : '-' ∉ n.text.toList := by
  have hdigits : ∀ k, '-' ∉ Text.digits k := fun k => Text.not_mem_digits (by decide)
  cases n <;> simp [NodeId.text, hdigits]

theorem StreamId.hyphen_not_mem_text (i : StreamId) : '-' ∉ i.text.toList := by
  have hdigits : '-' ∉ Text.digits i.index := Text.not_mem_digits (by decide)
  simp [hdigits]

/-! ## Edges -/

/-- A proxy is written with its source, its stream and its target, in this order. -/
theorem EdgeId.toList_text_proxy (n m : NodeId) (i : StreamId) :
    (EdgeId.proxy n i m).text.toList
      = "proxy-".toList ++ (n.text.toList ++ '-' :: (i.text.toList ++ '-' :: m.text.toList)) := by
  simp [EdgeId.text, String.toList_append]

/-- The edge of a stream is never written as a proxy is: their first letters differ. -/
theorem EdgeId.text_stream_ne_proxy (i j : StreamId) (n m : NodeId) :
    (EdgeId.stream i).text ≠ (EdgeId.proxy n j m).text := by
  intro h
  have hchars := congrArg String.toList h
  rw [EdgeId.toList_text_proxy] at hchars
  simp [EdgeId.text] at hchars

/-- Edges that are written alike are equal. -/
theorem EdgeId.text_inj {a b : EdgeId} : a.text = b.text ↔ a = b := by
  refine ⟨fun h => ?_, congrArg EdgeId.text⟩
  cases a with
  | stream i =>
    cases b with
    | stream j => rw [StreamId.text_inj.1 h]
    | proxy n j m => exact absurd h (EdgeId.text_stream_ne_proxy i j n m)
  | proxy n i m =>
    cases b with
    | stream j => exact absurd h.symm (EdgeId.text_stream_ne_proxy j i n m)
    | proxy n' j m' =>
      have hchars := congrArg String.toList h
      rw [EdgeId.toList_text_proxy, EdgeId.toList_text_proxy] at hchars
      -- behind the word, the first hyphen ends the source and the next one the stream
      obtain ⟨hn, hrest⟩ := Text.hyphen_inj n.hyphen_not_mem_text n'.hyphen_not_mem_text
        (List.append_cancel_left hchars)
      obtain ⟨hi, hm⟩ := Text.hyphen_inj i.hyphen_not_mem_text j.hyphen_not_mem_text hrest
      rw [NodeId.text_inj.1 (String.toList_injective hn),
        StreamId.text_inj.1 (String.toList_injective hi),
        NodeId.text_inj.1 (String.toList_injective hm)]

end TraceFold
