import Dez.Assembler.InstructionLines
import Dez.Assembler.Readings

/-! One text behind another: the lines of both, one after the other. -/
namespace Dez.Assembler
variable {a b text : List Byte} {items rest more : List Item} {stop : Item} {line : Line}
  {number : ℕ}

section items

/-- How many of the tokens end a line. -/
def newlinesIn (items : List Item) : ℕ := items.countP fun item => item.lexeme.type = .newline

/-- Behind a text whose strings all end, a newline and another text are read on their own. -/
theorem itemsFrom_append (hnul : 0#8 ∉ a) (hknown : Known (itemsFrom number a)) (b : List Byte) :
    itemsFrom number (a ++ newline :: b) = itemsFrom number a ++
      ⟨signLexeme .newline newline, number + newlinesIn (itemsFrom number a), colonEnds b⟩ ::
        itemsFrom (number + newlinesIn (itemsFrom number a) + 1) b := by
  induction hn : a.length using Nat.strong_induction_on generalizing a number with
  | _ n ih =>
    have hmem := (skipBlanks_suffix a).subset
    have hshorter := @length_behind a
    have hitems := itemsFrom_eq number a
    rw [itemsFrom_eq, skipBlanks_line]
    cases hs : skipBlanks a with
    | nil =>
      rw [hs] at hitems
      rw [hitems]
      rfl
    | cons c body =>
      rw [hs] at hitems hmem hshorter
      have hc : c ≠ 0#8 := fun h => hnul (h ▸ hmem (List.mem_cons_self ..))
      have hends := mt (scanToken_at c body).eof hc
      dsimp only at hitems
      rw [if_neg hends] at hitems
      rw [hitems] at hknown ⊢
      obtain ⟨hfirst, hbehind⟩ := List.forall_mem_cons.mp hknown
      have hsuffix := List.drop_suffix (scanToken (c :: body)).length (c :: body)
      have hrest := ih _ (hn ▸ hshorter hends) (fun h => hnul (hmem (hsuffix.subset h))) hbehind rfl
      dsimp only
      rw [scanToken_line hfirst, if_neg hends,
        List.drop_append_of_le_length (length_scanToken_le _), colonEnds_line, hrest, newlinesIn,
        newlinesIn, List.countP_cons]
      by_cases hnewline : (scanToken (c :: body)).type = .newline
      · simp only [hnewline, if_true, decide_true, Nat.add_assoc, Nat.add_comm 1, List.cons_append]
      · simp only [hnewline, if_false, decide_false, Bool.false_eq_true, Nat.add_zero,
          List.cons_append]

theorem length_itemsFrom_le (number : ℕ) (text : List Byte) :
    (itemsFrom number text).length ≤ text.length := by
  induction hn : text.length using Nat.strong_induction_on generalizing text number with
  | _ n ih =>
    rw [itemsFrom_eq]
    dsimp only
    split
    · exact Nat.zero_le _
    · rename_i heof
      have hshorter := length_behind heof
      rw [hn] at hshorter
      have hrest := ih _ hshorter (if (scanToken (skipBlanks text)).type = .newline then number + 1
        else number) _ rfl
      exact (Nat.succ_le_succ hrest).trans hshorter

end items

section lines

/-- The definition of a constant is four tokens. -/
theorem constantOf_takes (h : constantOf items = .ok line rest) : ∃ first used,
    items = (first :: used) ++ rest ∧
      ∀ more, constantOf ((first :: used) ++ more) = .ok line more := by
  have hread := h
  unfold constantOf at hread
  by_cases hfound : (headLexeme items.tail).type = .identifier
  · simp only [hfound, not_true_eq_false, false_or, if_true] at hread
    split_ifs at hread with hequ hnumber
    obtain ⟨value, behind, hvalue⟩ := @headLexeme_ne_nil items.tail.tail.tail fun he => by
      rw [he] at hnumber
      exact hnumber nofun
    match items, hvalue with
    | first :: name :: equ :: _ :: _, rfl =>
      cases hread
      refine ⟨first, [name, equ, value], rfl, fun more => ?_⟩
      have hname : (headLexeme (first :: [name, equ, value] ++ more).tail).type = .identifier :=
        hfound
      have hword : (headLexeme (first :: [name, equ, value] ++ more).tail.tail).value.chars =
          bytes "EQU" := not_not.mp hequ
      have hnum : (headLexeme (first :: [name, equ, value] ++ more).tail.tail.tail).type =
          .number := not_not.mp hnumber
      unfold constantOf
      simp only [hname, hword, hnum, not_true_eq_false, or_self, if_true, ne_eq, if_false]
      rfl
  · simp [hfound] at hread

/-- A line ends where it did when another line follows. -/
theorem lineOf_append (hstop : stop.lexeme.type = .newline) (h : lineOf items = .ok line rest) :
    lineOf (items ++ stop :: more) = .ok line (rest ++ stop :: more) := by
  cases lineOf_ok h with
  | blank hblank =>
    cases items with
    | nil => rcases hblank with ht | ht <;> cases ht
    | cons item items =>
      have htype : (headLexeme (item :: items ++ stop :: more)).type = item.lexeme.type := rfl
      unfold lineOf
      dsimp only
      rw [htype]
      rcases hblank with ht | ht
      · exact if_pos ht
      · have hnewline : item.lexeme.type ≠ .newline := by
          intro hn
          cases hn.symm.trans ht
        rw [if_neg hnewline]
        exact if_pos ht
  | label hi hcolon =>
    have hnil : items.dropWhile (fun item => item.lexeme.type ≠ .newline) ++ stop :: more =
        (items ++ stop :: more).dropWhile fun item => item.lexeme.type ≠ .newline := by
      rw [List.dropWhile_append]
      split
      · rename_i hempty
        rw [List.isEmpty_iff.mp hempty, List.nil_append, List.dropWhile_cons_of_neg]
        simp [hstop]
      · rfl
    cases items with
    | nil => cases hi
    | cons item items =>
      have htype : item.lexeme.type = .identifier := hi
      have htest : item.colon = true := hcolon
      rw [hnil]
      unfold lineOf
      simp only [headLexeme, headColon, List.cons_append, List.head?_cons, Option.map_some,
        Option.getD_some, htype, htest, reduceCtorEq, if_false, and_self, if_true]
      rfl
  | constant hi hcolon hequ hread =>
    obtain ⟨first, used, rfl, hanywhere⟩ := constantOf_takes hread
    have hmore := hanywhere (rest ++ stop :: more)
    rw [List.append_assoc]
    unfold lineOf
    simp only [headLexeme, headColon, List.cons_append, List.head?_cons, Option.map_some,
      Option.getD_some] at hi hcolon hequ hmore ⊢
    simp only [hi, hcolon, hequ, reduceCtorEq, if_false, Bool.false_eq_true, and_false, and_self,
      if_true, hmore]
  | instruction =>
    obtain ⟨used, rfl, htakes⟩ := lineOf_takes h
    rw [List.append_assoc]
    exact htakes.anywhere _

theorem lineOf_shorter (h : lineOf items = .ok line rest) : rest.length < items.length := by
  obtain ⟨item, behind, rfl⟩ := headLexeme_ne_nil (lineOf_ne_eof h)
  cases lineOf_ok h with
  | blank => exact Nat.lt_succ_self _
  | label hi =>
    have htype : item.lexeme.type ≠ .newline := by
      intro hn
      cases hn.symm.trans hi
    have hdrop : (item :: behind).dropWhile (fun item => item.lexeme.type ≠ .newline) =
        behind.dropWhile fun item => item.lexeme.type ≠ .newline :=
      List.dropWhile_cons_of_pos (decide_eq_true htype)
    rw [hdrop]
    exact Nat.lt_succ_of_le (List.dropWhile_suffix _).length_le
  | constant _ _ _ hread =>
    obtain ⟨first, used, hused, -⟩ := constantOf_takes hread
    rw [hused, List.length_append, List.length_cons]
    omega
  | instruction =>
    obtain ⟨used, hused, htakes⟩ := lineOf_takes h
    cases used with
    | nil => cases htakes.anywhere []
    | cons first used =>
      rw [hused, List.length_append, List.length_cons]
      omega

/-- Lines that were read to the end are read the same with a newline and more behind them. -/
theorem linesOf_append {n : ℕ} (hstop : stop.lexeme.type = .newline)
    (hlexemes : ∀ item ∈ items, item.lexeme.type ≠ .eof) (hfuel : items.length < n)
    (hend : (linesOf n items).2 = .eof) (fuel : ℕ) (more : List Item) :
    linesOf ((linesOf n items).1.length + 1 + fuel) (items ++ stop :: more) =
      ((linesOf n items).1 ++ .blank :: (linesOf fuel more).1, (linesOf fuel more).2) := by
  have hblank : lineOf (stop :: more) = .ok .blank more := if_pos hstop
  induction n generalizing items with
  | zero => exact absurd hfuel (Nat.not_lt_zero _)
  | succ n ih =>
    cases items with
    | nil =>
      rw [show linesOf (n + 1) [] = ([], .eof) from if_pos rfl, List.length_nil, Nat.zero_add,
        Nat.add_comm, List.nil_append, linesOf_ok (lineOf_ne_eof hblank) hblank]
      rfl
    | cons item items =>
      have htype : (headLexeme (item :: items)).type ≠ .eof :=
        hlexemes item (List.mem_cons_self ..)
      cases hline : lineOf (item :: items) with
      | stuck => simp [linesOf, hline, htype] at hend
      | fail => simp [linesOf, hline, htype] at hend
      | ok line rest =>
        have hsuffix := lineOf_suffix hline
        have hlength := lineOf_shorter hline
        have happend := @lineOf_append _ _ more stop _ hstop hline
        rw [linesOf_ok htype hline] at hend ⊢
        have hrest := ih (fun item hi => hlexemes item (hsuffix.subset hi)) (by omega) hend
        have hsucc : (line :: (linesOf n rest).1).length + 1 + fuel =
            (linesOf n rest).1.length + 1 + fuel + 1 := by
          rw [List.length_cons]
          omega
        rw [hsucc, linesOf_ok (lineOf_ne_eof happend) happend, hrest]
        rfl

end lines

section unnumbered

/-- A line without its number. -/
def Line.unnumbered : Line → Line
  | .label name _ => .label name 0
  | .constant name value _ => .constant name value 0
  | line => line

def Parse.unnumbered : Parse Line → Parse Line
  | .ok line rest => .ok line.unnumbered (rest.map (Item.inLine 0))
  | .stuck => .stuck
  | .fail => .fail

@[simp] theorem headLine_unnumbered (items : List Item) :
    headLine (items.map (Item.inLine 0)) = 0 := by
  cases items <;> rfl

theorem constantOf_unnumbered (items : List Item) :
    constantOf (items.map (Item.inLine 0)) = (constantOf items).unnumbered := by
  unfold constantOf
  simp only [← List.map_tail, headLexeme_inLine, headLine_unnumbered]
  by_cases hfound : (headLexeme items.tail).type = .identifier
  · simp only [hfound, ← List.map_tail, headLexeme_inLine, if_true]
    split
    · rfl
    · split <;> rfl
  · simp only [hfound, not_false_eq_true, true_or, if_true]
    rfl

theorem lineOf_unnumbered (items : List Item) :
    lineOf (items.map (Item.inLine 0)) = (lineOf items).unnumbered := by
  unfold lineOf
  simp only [← List.map_tail, headLexeme_inLine, headColon_inLine, headLine_unnumbered,
    constantOf_unnumbered, instructionOf_inLine, List.dropWhile_map]
  split
  · rfl
  · split
    · rfl
    · split
      · rfl
      · split
        · rfl
        · cases instructionOf items <;> rfl

theorem linesOf_unnumbered (n : ℕ) (items : List Item) :
    linesOf n (items.map (Item.inLine 0)) =
      ((linesOf n items).1.map Line.unnumbered, (linesOf n items).2) := by
  induction n generalizing items with
  | zero => rfl
  | succ n ih =>
    unfold linesOf
    rw [headLexeme_inLine, lineOf_unnumbered]
    split
    · rfl
    · cases lineOf items with
      | ok line rest => simp only [Parse.unnumbered, ih, List.map_cons]
      | stuck => rfl
      | fail => rfl

theorem itemsFrom_unnumbered (number number' : ℕ) (text : List Byte) :
    (itemsFrom number text).map (Item.inLine 0) = (itemsFrom number' text).map (Item.inLine 0) := by
  induction hn : text.length using Nat.strong_induction_on generalizing text number number' with
  | _ n ih =>
    rw [itemsFrom_eq, itemsFrom_eq number']
    dsimp only
    split
    · rfl
    · rename_i heof
      exact congrArg (_ :: ·) (ih _ (hn ▸ length_behind heof) _ _ _ rfl)

theorem itemsFrom_ne_eof (number : ℕ) (text : List Byte) :
    ∀ item ∈ itemsFrom number text, item.lexeme.type ≠ .eof := by
  induction hn : text.length using Nat.strong_induction_on generalizing text number with
  | _ n ih =>
    rw [itemsFrom_eq]
    dsimp only
    split
    · exact fun item hi => absurd hi List.not_mem_nil
    · rename_i heof
      exact List.forall_mem_cons.mpr ⟨heof, ih _ (hn ▸ length_behind heof) _ _ rfl⟩

theorem length_linesOf_le (n : ℕ) (items : List Item) :
    (linesOf n items).1.length ≤ items.length := by
  induction n generalizing items with
  | zero => exact Nat.zero_le _
  | succ n ih =>
    unfold linesOf
    split
    · exact Nat.zero_le _
    · cases hline : lineOf items with
      | ok line rest => exact (Nat.succ_le_succ (ih rest)).trans (lineOf_shorter hline)
      | stuck => exact Nat.zero_le _
      | fail => exact Nat.zero_le _

/-- A text is read to its end with any more rounds than it has bytes. -/
theorem linesOf_enough {n : ℕ} (h : text.length < n) :
    linesOf n (itemsFrom number text) = linesOf (text.length + 1) (itemsFrom number text) := by
  let lexer : Lexer := { lexerInit text with line := number }
  have hreads : Reads lexer (itemsFrom number text) := .fresh rfl
  have hleft : lexer.left = text.length := left_of_not_hasToken rfl
  obtain ⟨k, rfl⟩ := Nat.exists_eq_add_of_lt h
  have hfuel := @readLines_fuel (text.length + 1) lexer (by omega) k
  obtain ⟨hlines, hending⟩ := lines_match (text.length + 1) hreads
  obtain ⟨hlines', hending'⟩ := lines_match (text.length + 1 + k) hreads
  rw [hfuel] at hlines' hending'
  rw [Nat.add_right_comm]
  exact Prod.ext (hlines'.symm.trans hlines) (hending'.symm.trans hending)

/-- A text and another behind it are read one after the other. -/
theorem readSource_append (hnul : 0#8 ∉ a) (hknown : Known (textItems a))
    (hend : (readSource a).ending = .eof) (b : List Byte) :
    ∃ lines, (readSource (a ++ newline :: b)).lines = (readSource a).lines ++ .blank :: lines ∧
      lines.map Line.unnumbered = (readSource b).lines.map Line.unnumbered ∧
      (readSource (a ++ newline :: b)).ending = (readSource b).ending := by
  obtain ⟨hlines, hending⟩ := readSource_lines (a ++ newline :: b)
  obtain ⟨hfirst, hfirstEnd⟩ := readSource_lines a
  obtain ⟨hsecond, hsecondEnd⟩ := readSource_lines b
  let stop : Item := ⟨signLexeme .newline newline, 1 + newlinesIn (textItems a), colonEnds b⟩
  let items := itemsFrom (1 + newlinesIn (textItems a) + 1) b
  have hitems : textItems (a ++ newline :: b) = textItems a ++ stop :: items :=
    itemsFrom_append hnul hknown b
  have hcount : (textItems a).length ≤ a.length := length_itemsFrom_le 1 a
  have hshort := length_linesOf_le (a.length + 1) (textItems a)
  obtain ⟨k, hk⟩ : ∃ k, (a ++ newline :: b).length + 1 =
      (linesOf (a.length + 1) (textItems a)).1.length + 1 + k :=
    ⟨(a ++ newline :: b).length - (linesOf (a.length + 1) (textItems a)).1.length, by
      rw [List.length_append]
      omega⟩
  have hmore : b.length < k := by
    rw [List.length_append, List.length_cons] at hk
    omega
  have hread := @linesOf_append (textItems a) stop _ rfl (itemsFrom_ne_eof 1 a)
    (Nat.lt_succ_of_le hcount) (hfirstEnd ▸ hend) k items
  have hbehind : ((linesOf k items).1.map Line.unnumbered, (linesOf k items).2) =
      ((readSource b).lines.map Line.unnumbered, (readSource b).ending) := by
    rw [← linesOf_unnumbered, itemsFrom_unnumbered _ 1, linesOf_unnumbered, linesOf_enough hmore,
      hsecond, hsecondEnd, textItems]
  obtain ⟨hrest, hrestEnd⟩ := Prod.mk.inj hbehind
  rw [hlines, hending, hitems, hk, hread, hfirst]
  exact ⟨_, rfl, hrest, hrestEnd⟩

end unnumbered

end Dez.Assembler
