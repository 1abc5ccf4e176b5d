/-
  TraceFold.Proofs.Json.RoundTrip

  A value is read back from its text, in every layout that puts nothing but blanks between
  the tokens (`ofChars?_chars`).  A value is read in the middle of a text: what is read is
  said for every point where a value is due and every text behind it (`run_chars`).
-/

import TraceFold.Json.Reader
import TraceFold.Proofs.Json.Scan

namespace TraceFold.Json

variable {c : Char} {cs rest ws : List Char} {t : Token} {j : Json} {outer : List Frame}

/-! ## What may follow a number -/

theorem stops_cons (hc : c ∈ [',', ']', '\x7d', ' ', '\t', '\n', '\r']) : Stops (c :: cs) := by
  have hall : [',', ']', '\x7d', ' ', '\t', '\n', '\r'].all fun c =>
      !c.isDigit && c != '.' && c != 'e' && c != 'E' := by decide
  intro d hd
  obtain rfl : c = d := by simpa using hd
  simpa [and_assoc] using List.all_eq_true.1 hall c hc

theorem stops_nil : Stops [] := nofun

theorem isSpace_iff : isSpace c ↔ c ∈ [' ', '\t', '\n', '\r'] := by
  simp [isSpace, or_assoc]

/-- Spaces behind a number end it, whatever stands behind them. -/
theorem stops_spaces (hws : ∀ c ∈ ws, isSpace c) (hcs : Stops cs) : Stops (ws ++ cs) := by
  cases ws with
  | nil => exact hcs
  | cons c ws =>
    refine stops_cons ?_
    have hc := isSpace_iff.1 (hws c List.mem_cons_self)
    exact List.mem_append_right [',', ']', '\x7d'] hc

/-- A number ends where the rest of a list begins. -/
theorem stops_itemChars (layout : Layout) (depth : Nat) (js : List Json) (hcs : Stops cs) :
    Stops (itemChars layout depth js ++ cs) := by
  cases js with
  | nil => simpa [itemChars] using hcs
  | cons j js =>
    rw [itemChars]
    exact stops_cons (by decide)

/-- It ends where the rest of an object begins. -/
theorem stops_memberChars (layout : Layout) (depth : Nat) (ms : List (Option String × Json))
    (hcs : Stops cs) : Stops (memberChars layout depth ms ++ cs) := by
  cases ms with
  | nil => simpa [memberChars] using hcs
  | cons m ms =>
    rw [memberChars]
    exact stops_cons (by decide)

/-! ## One token further -/

namespace Reading

theorem run_eq (r : Reading) (cs : List Char) :
    r.run cs = match cs.dropWhile isSpace with
      | [] => r.finish?
      | c :: rest => (Token.scan (c :: rest)).bind fun x => (r.step x.1).bind (·.run x.2) := by
  rw [run]
  split
  · rename_i h
    rw [h]
  · rename_i c rest h
    rw [h]
    simp only
    split
    · rename_i hscan
      rw [hscan]
      rfl
    · rename_i t rest' hscan
      rw [hscan]
      cases hstep : r.step t <;> simp [hstep]

/-- Blanks are skipped. -/
theorem run_spaces (r : Reading) (hws : ∀ c ∈ ws, isSpace c) : r.run (ws ++ cs) = r.run cs := by
  rw [run_eq, run_eq, List.dropWhile_append_of_pos hws]

/-- No token begins with a blank. -/
theorem isSpace_of_scan {x : Token × List Char} (hscan : Token.scan (c :: cs) = some x) :
    isSpace c = false := by
  refine Bool.eq_false_iff.2 fun hc => ?_
  have hmem := isSpace_iff.1 hc
  simp only [List.mem_cons, List.not_mem_nil, or_false] at hmem
  rcases hmem with rfl | rfl | rfl | rfl <;>
    simp [Token.scan, scanMagnitude, scanDigits] at hscan

/-- A token that can be scanned is one step of the reading. -/
theorem run_token {r r' : Reading} (hscan : Token.scan cs = some (t, rest))
    (hstep : r.step t = some r') : r.run cs = r'.run rest := by
  cases cs with
  | nil => simp [Token.scan, scanMagnitude, scanDigits] at hscan
  | cons c cs =>
    have hdrop : (c :: cs).dropWhile isSpace = c :: cs := by simp [isSpace_of_scan hscan]
    rw [run_eq, hdrop]
    simp [hscan, hstep]

theorem run_end (j : Json) : (Reading.complete j []).run [] = some j := by
  rw [run_eq]
  rfl

/-- A value is due, behind which a text goes on. -/
def Due (r : Reading) (outer : List Frame) : Prop :=
  ∀ t, t ≠ .closeBracket → r.step t = stepValue outer t

theorem due_value (outer : List Frame) : (Reading.value outer).Due outer := fun _ _ => rfl

theorem due_firstItem (outer : List Frame) :
    (Reading.firstItem outer).Due (.items [] :: outer) := by
  intro t ht
  cases t <;> first | rfl | exact absurd rfl ht

end Reading

/-- Nothing but blanks stands between the tokens of a text. -/
structure Layout.Blank (layout : Layout) : Prop where
  lineBreak : ∀ depth, ∀ c ∈ layout.lineBreak depth, isSpace c
  afterColon : ∀ c ∈ layout.afterColon, isSpace c

open Reading

mutual

/-- A value is read from its text. -/
theorem run_chars {layout : Layout} (hlayout : layout.Blank) (depth : Nat) (j : Json)
    {r : Reading} {outer : List Frame} {rest : List Char} (hr : r.Due outer) (hrest : Stops rest) :
    r.run (j.chars layout depth ++ rest) = (Reading.complete j outer).run rest := by
  have hbreak := hlayout.lineBreak
  -- the frames around the value and the text behind it are different for each item inside
  -- it, so both stay general
  match j with
  | .null => exact run_token rfl (hr .null nofun)
  | .bool true => exact run_token rfl (hr (.bool true) nofun)
  | .bool false => exact run_token rfl (hr (.bool false) nofun)
  | .number n =>
    rw [chars]
    exact run_token (scan_numeralChars n hrest) (hr _ nofun)
  | .string t =>
    rw [chars]
    exact run_token (scan_quote t rest) (hr _ nofun)
  | .array [] =>
    have hopen : r.run ('[' :: ']' :: rest) = (Reading.firstItem outer).run (']' :: rest) :=
      run_token rfl (hr .openBracket nofun)
    rw [chars]
    exact hopen.trans (run_token rfl rfl)
  | .array (j :: js) =>
    have htext : (Json.array (j :: js)).chars layout depth ++ rest =
        '[' :: (layout.lineBreak (depth + 1) ++ (j.chars layout (depth + 1)
          ++ (itemChars layout (depth + 1) js ++ (layout.lineBreak depth ++ ']' :: rest)))) := by
      simp [chars]
    have hend : Stops (itemChars layout (depth + 1) js
        ++ (layout.lineBreak depth ++ ']' :: rest)) :=
      stops_itemChars _ _ _ (stops_spaces (hbreak depth) (stops_cons (by decide)))
    rw [htext]
    calc r.run ('[' :: _)
        = (Reading.firstItem outer).run _ := run_token rfl (hr .openBracket nofun)
      _ = (Reading.firstItem outer).run _ := run_spaces _ (hbreak (depth + 1))
      _ = (Reading.complete j (.items [] :: outer)).run _ :=
          run_chars hlayout (depth + 1) j (due_firstItem outer) hend
      _ = (Reading.complete (.array (j :: js)) outer).run rest :=
          run_itemChars hlayout (depth + 1) js (hbreak depth)
  | .object [] =>
    have hopen : r.run ('\x7b' :: '\x7d' :: rest) =
        (Reading.firstName outer).run ('\x7d' :: rest) :=
      run_token rfl (hr .openBrace nofun)
    rw [chars]
    exact hopen.trans (run_token rfl rfl)
  | .object ((name, j) :: ms) =>
    have htext : (Json.object ((name, j) :: ms)).chars layout depth ++ rest =
        '\x7b' :: (layout.lineBreak (depth + 1) ++ (quote name ++ (':' :: (layout.afterColon
          ++ (j.chars layout (depth + 1) ++ (memberChars layout (depth + 1) ms
          ++ (layout.lineBreak depth ++ '\x7d' :: rest))))))) := by
      simp [chars]
    have hend : Stops (memberChars layout (depth + 1) ms
        ++ (layout.lineBreak depth ++ '\x7d' :: rest)) :=
      stops_memberChars _ _ _ (stops_spaces (hbreak depth) (stops_cons (by decide)))
    rw [htext]
    calc r.run ('\x7b' :: _)
        = (Reading.firstName outer).run _ := run_token rfl (hr .openBrace nofun)
      _ = (Reading.firstName outer).run _ := run_spaces _ (hbreak (depth + 1))
      _ = (Reading.colon [] name outer).run _ := run_token (scan_quote name _) rfl
      _ = (Reading.value (.members [] name :: outer)).run _ := run_token rfl rfl
      _ = (Reading.value (.members [] name :: outer)).run _ := run_spaces _ hlayout.afterColon
      _ = (Reading.complete j (.members [] name :: outer)).run _ :=
          run_chars hlayout (depth + 1) j (due_value _) hend
      _ = (Reading.complete (.object ((name, j) :: ms)) outer).run rest :=
          run_memberChars hlayout (depth + 1) ms (hbreak depth)

/-- The items behind one that has been read, up to the end of the array. -/
theorem run_itemChars {layout : Layout} (hlayout : layout.Blank) (depth : Nat) (js : List Json)
    {v : Json} {before : List Json} {outer : List Frame} {ws rest : List Char}
    (hws : ∀ c ∈ ws, isSpace c) :
    (Reading.complete v (.items before :: outer)).run
        (itemChars layout depth js ++ (ws ++ ']' :: rest)) =
      (Reading.complete (.array ((v :: before).reverse ++ js)) outer).run rest := by
  match js with
  | [] =>
    rw [itemChars, List.nil_append, run_spaces _ hws, List.append_nil]
    exact run_token rfl rfl
  | j :: js =>
    have htext : itemChars layout depth (j :: js) ++ (ws ++ ']' :: rest) =
        ',' :: (layout.lineBreak depth ++ (j.chars layout depth
          ++ (itemChars layout depth js ++ (ws ++ ']' :: rest)))) := by
      simp [itemChars]
    have hend : Stops (itemChars layout depth js ++ (ws ++ ']' :: rest)) :=
      stops_itemChars _ _ _ (stops_spaces hws (stops_cons (by decide)))
    -- once it has been read, the item counts among those in front of the rest
    have hitems : (Reading.complete j (.items (v :: before) :: outer)).run
          (itemChars layout depth js ++ (ws ++ ']' :: rest)) =
        (Reading.complete (.array ((j :: v :: before).reverse ++ js)) outer).run rest :=
      run_itemChars hlayout depth js hws
    rw [htext]
    calc (Reading.complete v (.items before :: outer)).run (',' :: _)
        = (Reading.value (.items (v :: before) :: outer)).run _ := run_token rfl rfl
      _ = (Reading.value (.items (v :: before) :: outer)).run _ :=
          run_spaces _ (hlayout.lineBreak depth)
      _ = (Reading.complete j (.items (v :: before) :: outer)).run _ :=
          run_chars hlayout depth j (due_value _) hend
      _ = (Reading.complete (.array ((v :: before).reverse ++ j :: js)) outer).run rest := by
          simpa using hitems

/-- The members behind one that has been read, up to the end of the object. -/
theorem run_memberChars {layout : Layout} (hlayout : layout.Blank) (depth : Nat)
    (ms : List (Option String × Json)) {v : Json} {key : Option String}
    {before : List (Option String × Json)} {outer : List Frame} {ws rest : List Char}
    (hws : ∀ c ∈ ws, isSpace c) :
    (Reading.complete v (.members before key :: outer)).run
        (memberChars layout depth ms ++ (ws ++ '\x7d' :: rest)) =
      (Reading.complete (.object (((key, v) :: before).reverse ++ ms)) outer).run rest := by
  match ms with
  | [] =>
    rw [memberChars, List.nil_append, run_spaces _ hws, List.append_nil]
    exact run_token rfl rfl
  | (name, j) :: ms =>
    have htext : memberChars layout depth ((name, j) :: ms) ++ (ws ++ '\x7d' :: rest) =
        ',' :: (layout.lineBreak depth ++ (quote name ++ (':' :: (layout.afterColon
          ++ (j.chars layout depth
          ++ (memberChars layout depth ms ++ (ws ++ '\x7d' :: rest))))))) := by
      simp [memberChars]
    have hend : Stops (memberChars layout depth ms ++ (ws ++ '\x7d' :: rest)) :=
      stops_memberChars _ _ _ (stops_spaces hws (stops_cons (by decide)))
    have hmembers : (Reading.complete j (.members ((key, v) :: before) name :: outer)).run
          (memberChars layout depth ms ++ (ws ++ '\x7d' :: rest)) =
        (Reading.complete (.object (((name, j) :: (key, v) :: before).reverse ++ ms)) outer).run
          rest :=
      run_memberChars hlayout depth ms hws
    rw [htext]
    calc (Reading.complete v (.members before key :: outer)).run (',' :: _)
        = (Reading.nextName ((key, v) :: before) outer).run _ := run_token rfl rfl
      _ = (Reading.nextName ((key, v) :: before) outer).run _ :=
          run_spaces _ (hlayout.lineBreak depth)
      _ = (Reading.colon ((key, v) :: before) name outer).run _ := run_token (scan_quote name _) rfl
      _ = (Reading.value (.members ((key, v) :: before) name :: outer)).run _ := run_token rfl rfl
      _ = (Reading.value (.members ((key, v) :: before) name :: outer)).run _ :=
          run_spaces _ hlayout.afterColon
      _ = (Reading.complete j (.members ((key, v) :: before) name :: outer)).run _ :=
          run_chars hlayout depth j (due_value _) hend
      _ = (Reading.complete (.object (((key, v) :: before).reverse ++ (name, j) :: ms)) outer).run
            rest := by
          simpa using hmembers

end

/-! ## Whole texts -/

/-- A value is read back from its text, with blanks behind it or without. -/
theorem ofChars?_chars {layout : Layout} (hlayout : layout.Blank) (depth : Nat) (j : Json)
    (hws : ∀ c ∈ ws, isSpace c) : ofChars? (j.chars layout depth ++ ws) = some j := by
  have hstops : Stops ws := by simpa using stops_spaces hws stops_nil
  have hskip : (Reading.complete j []).run (ws ++ []) = (Reading.complete j []).run [] :=
    run_spaces _ hws
  rw [List.append_nil] at hskip
  rw [ofChars?, run_chars hlayout depth j (due_value []) hstops, hskip, run_end]

theorem blank_compact : Layout.compact.Blank :=
  ⟨fun _ _ hc => absurd hc List.not_mem_nil, fun _ hc => absurd hc List.not_mem_nil⟩

theorem blank_indented : Layout.indented.Blank where
  lineBreak depth c hc := by
    rcases List.mem_cons.1 hc with rfl | hc
    · decide
    · rw [List.eq_of_mem_replicate hc]
      decide
  afterColon c hc := by
    rw [List.mem_singleton.1 hc]
    decide

/-- A value is read back from one line. -/
theorem parse?_compact (j : Json) : parse? j.compact = some j := by
  have h : ofChars? (j.chars .compact 0 ++ []) = some j := ofChars?_chars blank_compact 0 j nofun
  simpa [parse?, compact] using h

/-- A value is read back from many lines, with a line break at the end. -/
theorem parse?_indented (j : Json) : parse? (j.indented ++ "\n") = some j := by
  have h : ofChars? (j.chars .indented 0 ++ ['\n']) = some j :=
    ofChars?_chars blank_indented 0 j (by simp [isSpace])
  simpa [parse?, indented, String.toList_append] using h

end TraceFold.Json
