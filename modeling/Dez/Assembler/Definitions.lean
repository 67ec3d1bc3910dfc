import Mathlib.Data.List.Nodup
import Dez.Assembler.Entries
import Dez.Assembler.Undefined

/-! Which label definitions reach the symbol table. -/
namespace Dez.Assembler

variable {lines before after : List Line} {table : SymbolTable} {name : CString 255}

/-- The labels the parser takes lines for, with the numbers of these lines. -/
def labelsIn (lines : List Line) : List (CString 255 × ℕ) :=
  lines.filterMap fun line =>
    match line with
    | .label name number => some (name, number)
    | _ => none

/-- The entries for labels, with the numbers of the lines that made them. -/
def labelEntries (table : SymbolTable) : List (CString 63 × ℕ) :=
  (table.symbols.filter fun symbol => symbol.type = .label).map fun symbol =>
    (symbol.name, symbol.line)

section entries

theorem labelEntries_add_of_takes {raw : List Byte} {type : SymbolType} {address value : Word}
    {text : Option (List Byte)} {number : ℕ} (h : table.Takes raw) :
    labelEntries (symbolTableAdd table raw type address value text number).2.1 =
      labelEntries table ++ if type = .label then [(.ofBytes 63 raw, number)] else [] := by
  rw [labelEntries, symbols_add_of_takes h, List.filter_append, List.map_append]
  by_cases htype : type = .label
  · simp [labelEntries, newEntry, htype]
  · simp [labelEntries, newEntry, htype]

theorem labelEntries_add_of_not_takes {raw : List Byte} {type : SymbolType} {address value : Word}
    {text : Option (List Byte)} {number : ℕ} (h : ¬ table.Takes raw) :
    labelEntries (symbolTableAdd table raw type address value text number).2.1 =
      labelEntries table := by
  rw [labelEntries, symbols_add_of_not_takes h]
  rfl

/-- Only labels are entered as labels. -/
theorem labelEntries_add_of_ne {raw : List Byte} {type : SymbolType} {address value : Word}
    {text : Option (List Byte)} {number : ℕ} (h : type ≠ .label) :
    labelEntries (symbolTableAdd table raw type address value text number).2.1 =
      labelEntries table := by
  by_cases htakes : table.Takes raw
  · rw [labelEntries_add_of_takes htakes, if_neg h, List.append_nil]
  · exact labelEntries_add_of_not_takes htakes

/-- The second pass enters no label. -/
theorem labelEntries_literals (texts : List (CString 255)) (table : SymbolTable) :
    labelEntries (texts.foldl defineLiteral table) = labelEntries table := by
  induction texts generalizing table with
  | nil => rfl
  | cons text texts ih => exact (ih _).trans (labelEntries_add_of_ne (by decide))

theorem labelEntries_init : labelEntries (tableBehind []) = [] := rfl

/-- What one more line adds to the labels that have entries. -/
theorem labelEntries_append (lines : List Line) (line : Line) :
    labelEntries (tableBehind (lines ++ [line])) = labelEntries (tableBehind lines) ++
      (labelsIn [line]).filterMap fun label =>
        if Enters (entered lines) label.1 then some (label.1.copy 63, label.2) else none := by
  rw [tableBehind_append]
  cases line with
  | blank => exact (List.append_nil _).symm
  | instruction inst => exact (List.append_nil _).symm
  | constant name value number =>
    exact (labelEntries_add_of_ne (by decide)).trans (List.append_nil _).symm
  | label name number =>
    have htakes := @SymbolTable.Has.takes_iff _ _ name (has_entered lines)
    by_cases henters : Enters (entered lines) name
    · refine (labelEntries_add_of_takes (htakes.mpr henters)).trans ?_
      simp [labelsIn, henters, CString.copy, tableBehind]
    · refine (labelEntries_add_of_not_takes (mt htakes.mp henters)).trans ?_
      simp [labelsIn, henters, tableBehind]

/-- The labels that have entries are those that were entered when their lines were reached. -/
theorem mem_labelEntries {pair : CString 63 × ℕ} :
    pair ∈ labelEntries (tableBehind lines) ↔ ∃ before name number after,
      lines = before ++ .label name number :: after ∧ Enters (entered before) name ∧
        pair = (name.copy 63, number) := by
  induction lines using List.reverseRecOn with
  | nil =>
    refine iff_of_false (labelEntries_init ▸ List.not_mem_nil) ?_
    rintro ⟨before, name, number, after, hsplit, -⟩
    exact absurd hsplit.symm (List.append_ne_nil_of_right_ne_nil before (List.cons_ne_nil _ _))
  | append_singleton lines line ih =>
    rw [labelEntries_append, List.mem_append, ih]
    constructor
    · rintro (⟨before, name, number, after, rfl, henters, hpair⟩ | hlast)
      · exact ⟨before, name, number, after ++ [line], by simp, henters, hpair⟩
      · obtain ⟨⟨name, number⟩, hlabel, hpair⟩ := List.mem_filterMap.mp hlast
        obtain ⟨other, hother, hname⟩ := List.mem_filterMap.mp hlabel
        obtain rfl := List.mem_singleton.mp hother
        split at hname
        · cases hname
          split at hpair
          · exact ⟨lines, name, number, [], rfl, ‹_›, (Option.some.inj hpair).symm⟩
          · cases hpair
        · cases hname
    · rintro ⟨before, name, number, after, hsplit, henters, rfl⟩
      rcases List.eq_nil_or_concat' after with rfl | ⟨after, last, rfl⟩
      · right
        obtain ⟨rfl, hone⟩ := List.append_inj' hsplit rfl
        obtain rfl := List.singleton_inj.mp hone
        simp [labelsIn, henters]
      · left
        rw [← List.cons_append, ← List.append_assoc] at hsplit
        exact ⟨before, name, number, after, (List.append_inj' hsplit rfl).1, henters, rfl⟩

theorem labelsIn_append (first second : List Line) :
    labelsIn (first ++ second) = labelsIn first ++ labelsIn second := List.filterMap_append

/-- They come in the order of their lines. -/
theorem labelEntries_sublist (lines : List Line) :
    ((labelEntries (tableBehind lines)).map Prod.snd).Sublist ((labelsIn lines).map Prod.snd) := by
  induction lines using List.reverseRecOn with
  | nil => exact List.Sublist.refl []
  | append_singleton lines line ih =>
    rw [labelEntries_append, labelsIn_append, List.map_append, List.map_append]
    refine ih.append ?_
    cases line with
    | label name number =>
      by_cases henters : Enters (entered lines) name
      · simp [labelsIn, henters]
      · simp [labelsIn, henters]
    | _ => exact List.Sublist.refl []

end entries

section tokens

variable {n : ℕ} {items rest : List Item} {first : Bool}

/-- The label lines among some tokens, with their numbers: a line's tokens are an identifier and a
colon. Whether the first token is the first of its line is given. -/
def labelLines : Bool → List Item → List (CString 255 × ℕ)
  | _, [] => []
  | first, item :: rest =>
    let others := labelLines (item.lexeme.type = .newline) rest
    if first ∧ item.lexeme.type = .identifier ∧ (headLexeme rest).type = .colon ∧
        (rest.tail = [] ∨ (headLexeme rest.tail).type = .newline) then
      (item.lexeme.value, item.line) :: others
    else others

/-- The label lines of a text. -/
def sourceLabels (input : List Byte) : List (CString 255 × ℕ) := labelLines true (textItems input)

/-- Each token has the number of its line. -/
def Numbered : ℕ → List Item → Prop
  | _, [] => True
  | n, item :: rest =>
    item.line = n ∧ Numbered (if item.lexeme.type = .newline then n + 1 else n) rest

theorem numbered_itemsFrom (number : ℕ) (text : List Byte) :
    Numbered number (itemsFrom number text) := by
  induction hn : text.length using Nat.strong_induction_on generalizing text number with
  | _ n ih =>
    rw [itemsFrom_eq]
    dsimp only
    split
    · exact trivial
    · rename_i heof
      exact ⟨rfl, ih _ (hn ▸ length_behind heof) _ _ rfl⟩

theorem Numbered.le (h : Numbered n items) : ∀ item ∈ items, n ≤ item.line := by
  induction items generalizing n with
  | nil => exact fun item hi => absurd hi List.not_mem_nil
  | cons item rest ih =>
    obtain ⟨hline, hrest⟩ := h
    refine List.forall_mem_cons.mpr ⟨hline.ge, fun other hother => ?_⟩
    have hle := ih hrest other hother
    split at hle <;> omega

theorem Numbered.suffix (h : Numbered n items) (hsuffix : rest <:+ items) :
    ∃ m, Numbered m rest := by
  induction items generalizing n with
  | nil =>
    rw [List.suffix_nil.mp hsuffix]
    exact ⟨0, trivial⟩
  | cons item items ih =>
    rcases List.suffix_cons_iff.mp hsuffix with rfl | hrest
    · exact ⟨n, h⟩
    · exact ih h.2 hrest

/-- The rest of a line has the number of its start. -/
theorem Numbered.behind (h : Numbered n items) :
    Numbered n (items.dropWhile fun item => item.lexeme.type ≠ .newline) := by
  induction items with
  | nil => exact trivial
  | cons item rest ih =>
    by_cases hnewline : item.lexeme.type = .newline
    · rwa [List.dropWhile_cons_of_neg (by simp [hnewline])]
    · obtain ⟨-, hrest⟩ := h
      rw [if_neg hnewline] at hrest
      rw [List.dropWhile_cons_of_pos (by simp [hnewline])]
      exact ih hrest

/-- Label lines have numbers from that of the first token on, and behind its line larger ones. -/
theorem le_of_mem_labelLines {label : CString 255 × ℕ} (h : Numbered n items)
    (hmem : label ∈ labelLines first items) :
    n ≤ label.2 ∧ (first = false → n < label.2) := by
  induction items generalizing n first with
  | nil => cases hmem
  | cons item rest ih =>
    obtain ⟨hline, hrest⟩ := h
    have hothers : label ∈ labelLines (item.lexeme.type = .newline) rest → n < label.2 := by
      intro hother
      obtain ⟨hle, hlt⟩ := ih hrest hother
      by_cases hnewline : item.lexeme.type = .newline
      · rw [if_pos hnewline] at hle
        exact hle
      · rw [if_neg hnewline] at hlt
        exact hlt (decide_eq_false hnewline)
    unfold labelLines at hmem
    dsimp only at hmem
    split at hmem
    · rename_i hlabel
      rcases List.mem_cons.mp hmem with rfl | hother
      · exact ⟨hline.ge, fun hfirst => absurd (hfirst.symm.trans hlabel.1) Bool.false_ne_true⟩
      · exact ⟨(hothers hother).le, fun _ => hothers hother⟩
    · exact ⟨(hothers hmem).le, fun _ => hothers hmem⟩

theorem pairwise_labelLines (h : Numbered n items) :
    (labelLines first items).Pairwise fun a b => a.2 < b.2 := by
  induction items generalizing n first with
  | nil => exact List.Pairwise.nil
  | cons item rest ih =>
    obtain ⟨hline, hrest⟩ := h
    unfold labelLines
    dsimp only
    split
    · rename_i hlabel
      have hnewline : item.lexeme.type ≠ .newline := by
        rw [hlabel.2.1]
        exact nofun
      refine List.pairwise_cons.mpr ⟨fun other hother => ?_, ih hrest⟩
      rw [if_neg hnewline] at hrest
      rw [hline]
      exact (le_of_mem_labelLines hrest hother).2 (decide_eq_false hnewline)
    · exact ih hrest

/-- A label line has one identifier. -/
theorem value_of_labelLines {label : CString 255 × ℕ} (h : Numbered n items)
    (hmem : label ∈ labelLines first items) {item : Item} (hitem : item ∈ items)
    (hi : item.lexeme.type = .identifier) (hline : item.line = label.2) :
    item.lexeme.value = label.1 := by
  induction items generalizing n first with
  | nil => cases hmem
  | cons head rest ih =>
    obtain ⟨hhead, hrest⟩ := h
    have hothers : label ∈ labelLines (head.lexeme.type = .newline) rest →
        item.lexeme.value = label.1 := by
      intro hother
      rcases List.mem_cons.mp hitem with rfl | hin
      · have hnewline : item.lexeme.type ≠ .newline := by
          rw [hi]
          exact nofun
        rw [if_neg hnewline] at hrest
        have hlt := (le_of_mem_labelLines hrest hother).2 (decide_eq_false hnewline)
        omega
      · exact ih hrest hother hin
    unfold labelLines at hmem
    dsimp only at hmem
    split at hmem
    · rename_i hlabel
      rcases List.mem_cons.mp hmem with rfl | hother
      · rcases List.mem_cons.mp hitem with rfl | hin
        · rfl
        · exfalso
          -- behind the identifier of the label line stand a colon and the next line
          obtain ⟨-, hname, hcolon, hend⟩ := hlabel
          rw [if_neg (by rw [hname]; exact nofun)] at hrest
          obtain ⟨colon, rest, rfl⟩ := @headLexeme_ne_nil rest (by rw [hcolon]; exact nofun)
          have hcolon' : colon.lexeme.type = .colon := hcolon
          obtain ⟨-, hrest⟩ := hrest
          rw [if_neg (by rw [hcolon']; exact nofun)] at hrest
          rcases List.mem_cons.mp hin with rfl | hin
          · cases hi.symm.trans hcolon'
          · cases rest with
            | nil => cases hin
            | cons stop rest =>
              have hstop : stop.lexeme.type = .newline :=
                hend.resolve_left (List.cons_ne_nil stop rest)
              obtain ⟨-, hrest⟩ := hrest
              rw [if_pos hstop] at hrest
              rcases List.mem_cons.mp hin with rfl | hin
              · cases hi.symm.trans hstop
              · have hle := hrest.le item hin
                have hnumber : item.line = head.line := hline
                omega
      · exact hothers hother
    · exact hothers hmem

end tokens

section reading

variable {n fuel : ℕ} {items : List Item} {label : CString 255 × ℕ}

theorem mem_labelsIn : label ∈ labelsIn lines ↔ .label label.1 label.2 ∈ lines := by
  constructor
  · intro h
    obtain ⟨line, hline, hlabel⟩ := List.mem_filterMap.mp h
    split at hlabel
    · cases hlabel
      exact hline
    · cases hlabel
  · intro h
    exact List.mem_filterMap.mpr ⟨_, h, rfl⟩

/-- A label that is read has the text and the number of an identifier. -/
theorem item_of_label (h : label ∈ labelsIn (linesOf fuel items).1) :
    ∃ item ∈ items, item.lexeme.type = .identifier ∧ item.lexeme.value = label.1 ∧
      item.line = label.2 := by
  induction fuel generalizing items with
  | zero => cases h
  | succ fuel ih =>
    unfold linesOf at h
    split at h
    · cases h
    · cases hline : lineOf items with
      | stuck =>
        rw [hline] at h
        cases h
      | fail =>
        rw [hline] at h
        cases h
      | ok line rest =>
        rw [hline] at h
        have hrest : label ∈ labelsIn (linesOf fuel rest).1 → ∃ item ∈ items,
            item.lexeme.type = .identifier ∧ item.lexeme.value = label.1 ∧
              item.line = label.2 := by
          intro hmem
          obtain ⟨item, hitem, hi⟩ := ih hmem
          exact ⟨item, (lineOf_suffix hline).subset hitem, hi⟩
        rcases List.mem_cons.mp (mem_labelsIn.mp h) with hfirst | hmem
        · obtain ⟨name, number⟩ := label
          rw [← hfirst] at hline
          obtain ⟨item, behind, rfl⟩ := headLexeme_ne_nil (lineOf_ne_eof hline)
          cases lineOf_ok hline with
          | label hi => exact ⟨item, List.mem_cons_self .., hi, rfl, rfl⟩
          | constant _ _ _ hread =>
            obtain ⟨⟨value, hconstant⟩, -⟩ := constantOf_ok hread
            cases hconstant
        · exact hrest (mem_labelsIn.mpr hmem)

/-- The labels that are read are in different lines, one behind the other. -/
theorem pairwise_labelsIn (h : Numbered n items) :
    (labelsIn (linesOf fuel items).1).Pairwise fun a b => a.2 < b.2 := by
  induction fuel generalizing n items with
  | zero => exact List.Pairwise.nil
  | succ fuel ih =>
    unfold linesOf
    split
    · exact List.Pairwise.nil
    · cases hline : lineOf items with
      | stuck => exact List.Pairwise.nil
      | fail => exact List.Pairwise.nil
      | ok line rest =>
        obtain ⟨m, hrest⟩ := h.suffix (lineOf_suffix hline)
        cases line with
        | blank => exact ih hrest
        | instruction inst => exact ih hrest
        | constant name value number => exact ih hrest
        | label name number =>
          refine List.pairwise_cons.mpr ⟨fun other hother => ?_, ih hrest⟩
          obtain ⟨item, hitem, hi, -, hnumber⟩ := item_of_label hother
          obtain ⟨first, items, rfl⟩ := headLexeme_ne_nil (lineOf_ne_eof hline)
          cases lineOf_ok hline with
          | constant _ _ _ hread =>
            obtain ⟨⟨value, hconstant⟩, -⟩ := constantOf_ok hread
            cases hconstant
          | label hname hcolon =>
            -- what is left starts with the end of the label's line
            have hbehind := h.behind
            have hfirst : headLine (first :: items) = n := h.1
            rw [hfirst, ← hnumber]
            cases hstop : (first :: items).dropWhile fun item => item.lexeme.type ≠ .newline with
            | nil =>
              rw [hstop] at hitem
              cases hitem
            | cons stop more =>
              have hnewline : stop.lexeme.type = .newline := by
                have hnot := List.head?_dropWhile_not
                  (fun item : Item => decide (item.lexeme.type ≠ .newline)) (first :: items)
                rw [hstop] at hnot
                simpa using hnot
              rw [hstop] at hitem hbehind
              obtain ⟨-, hmore⟩ := hbehind
              rw [if_pos hnewline] at hmore
              rcases List.mem_cons.mp hitem with rfl | hin
              · cases hi.symm.trans hnewline
              · exact hmore.le item hin

end reading

section source

variable {capacity : ℕ} {input : List Byte}

/-- Every label line of the text has its entry, and these are all the entries for labels; no two
lines have the same name. -/
structure NoneLost (table : SymbolTable) (input : List Byte) : Prop where
  number : (labelEntries table).length = (sourceLabels input).length
  effect : ∀ label ∈ sourceLabels input, (label.1.copy 63, label.2) ∈ labelEntries table
  once : ((sourceLabels input).map Prod.fst).Nodup

/-- The parser takes every label line for one, and a line that it takes for one is entered, by the
names of the definitions before it, exactly if it is one; no two label lines have the same name. -/
structure EntersLabels (input : List Byte) : Prop where
  read : ∀ label ∈ sourceLabels input, label ∈ labelsIn (readSource input).lines
  enters : ∀ before name number after,
    (readSource input).lines = before ++ .label name number :: after →
      (Enters (entered before) name ↔ (name, number) ∈ sourceLabels input)
  once : ((sourceLabels input).map Prod.fst).Nodup

theorem value_of_source {name name' : CString 255} {number : ℕ}
    (hread : (name, number) ∈ labelsIn (readSource input).lines)
    (hsource : (name', number) ∈ sourceLabels input) : name = name' := by
  rw [(readSource_lines input).1] at hread
  obtain ⟨item, hitem, hi, hvalue, hline⟩ := item_of_label hread
  exact hvalue.symm.trans
    (value_of_labelLines (numbered_itemsFrom 1 input) hsource hitem hi hline)

/-- A line number belongs to one label that is read. -/
theorem split_unique {before' after' : List Line} {name' : CString 255} {number : ℕ}
    (hpairwise : (labelsIn lines).Pairwise fun a b => a.2 < b.2)
    (h : lines = before ++ .label name number :: after)
    (h' : lines = before' ++ .label name' number :: after') : before = before' := by
  have hlabels : ∀ (first second : List Line) (long : CString 255),
      labelsIn (first ++ .label long number :: second) =
        labelsIn first ++ (long, number) :: labelsIn second := fun first second long =>
    labelsIn_append first _
  have hno : ∀ (first second : List Line) (long other : CString 255),
      lines = first ++ .label long number :: second → .label other number ∉ first ∧
        .label other number ∉ second := by
    rintro first second long other rfl
    rw [hlabels, List.pairwise_append, List.pairwise_cons] at hpairwise
    obtain ⟨-, ⟨hsecond, -⟩, hfirst⟩ := hpairwise
    constructor
    · intro hmem
      exact Nat.lt_irrefl number (hfirst (other, number) (mem_labelsIn.mpr hmem) (long, number)
        (List.mem_cons_self ..))
    · intro hmem
      exact Nat.lt_irrefl number (hsecond (other, number) (mem_labelsIn.mpr hmem))
  obtain ⟨hfirst, -⟩ := hno before after name name' h
  obtain ⟨hfirst', -⟩ := hno before' after' name' name h'
  rw [h] at h'
  rcases List.append_eq_append_iff.mp h' with ⟨middle, rfl, hmiddle⟩ | ⟨middle, rfl, hmiddle⟩
  · cases middle with
    | nil => exact (List.append_nil _).symm
    | cons line middle =>
      obtain ⟨rfl, -⟩ := List.cons.inj hmiddle
      exact absurd (List.mem_append_right _ (List.mem_cons_self ..)) hfirst'
  · cases middle with
    | nil => exact List.append_nil _
    | cons line middle =>
      obtain ⟨rfl, -⟩ := List.cons.inj hmiddle
      exact absurd (List.mem_append_right _ (List.mem_cons_self ..)) hfirst

theorem nodup_of_pairwise {α : Type} {pairs : List (α × ℕ)}
    (h : pairs.Pairwise fun a b => a.2 < b.2) : pairs.Nodup :=
  h.imp fun hlt => by
    rintro rfl
    exact Nat.lt_irrefl _ hlt

theorem pairwise_read (input : List Byte) :
    (labelsIn (readSource input).lines).Pairwise fun a b => a.2 < b.2 := by
  rw [(readSource_lines input).1]
  exact pairwise_labelsIn (numbered_itemsFrom 1 input)

theorem nodup_labelEntries (input : List Byte) :
    (labelEntries (tableBehind (readSource input).lines)).Nodup := by
  have hnumbers := (List.pairwise_map.mpr (pairwise_read input)).sublist (labelEntries_sublist _)
  exact nodup_of_pairwise (List.pairwise_map.mp hnumbers)

/-- The entries that the label lines of a text should have. -/
def lineEntries (input : List Byte) : List (CString 63 × ℕ) :=
  (sourceLabels input).map fun label => (label.1.copy 63, label.2)

theorem nodup_lineEntries (input : List Byte) : (lineEntries input).Nodup :=
  nodup_of_pairwise (List.pairwise_map.mpr (pairwise_labelLines (numbered_itemsFrom 1 input)))

theorem mem_read {before after : List Line} {name : CString 255} {number : ℕ}
    (hsplit : (readSource input).lines = before ++ .label name number :: after) :
    (name, number) ∈ labelsIn (readSource input).lines :=
  mem_labelsIn.mpr (hsplit ▸ List.mem_append_right _ (List.mem_cons_self ..))

/-- A label line that has its entry is read, and its name is entered there. -/
theorem entered_of_entry {name : CString 255} {number : ℕ}
    (hlabel : (name, number) ∈ sourceLabels input)
    (hentry : (name.copy 63, number) ∈ labelEntries (tableBehind (readSource input).lines)) :
    ∃ before after, (readSource input).lines = before ++ .label name number :: after ∧
      Enters (entered before) name := by
  obtain ⟨before, other, number', after, hsplit, henters, hpair⟩ := mem_labelEntries.mp hentry
  obtain ⟨-, rfl⟩ := Prod.mk.inj hpair
  obtain rfl := value_of_source (mem_read hsplit) hlabel
  exact ⟨before, after, hsplit, henters⟩

/-- If no label line is lost, the entries are all there are. -/
theorem NoneLost.enters (h : NoneLost (tableBehind (readSource input).lines) input) :
    EntersLabels input := by
  have hsubset : lineEntries input ⊆ labelEntries (tableBehind (readSource input).lines) := by
    intro pair hpair
    obtain ⟨label, hlabel, rfl⟩ := List.mem_map.mp hpair
    exact h.effect label hlabel
  have hlength : (labelEntries (tableBehind (readSource input).lines)).length ≤
      (lineEntries input).length := by
    rw [lineEntries, List.length_map]
    exact h.number.le
  have hperm := ((nodup_lineEntries input).subperm hsubset).perm_of_length_le hlength
  refine ⟨?_, ?_, h.once⟩
  · rintro ⟨name, number⟩ hlabel
    obtain ⟨before, after, hsplit, -⟩ := entered_of_entry hlabel (h.effect _ hlabel)
    exact mem_read hsplit
  · intro before name number after hsplit
    constructor
    · intro henters
      have hpair := hperm.mem_iff.mpr
        (mem_labelEntries.mpr ⟨before, name, number, after, hsplit, henters, rfl⟩)
      obtain ⟨⟨other, number'⟩, hlabel, heq⟩ := List.mem_map.mp hpair
      obtain ⟨-, rfl⟩ := Prod.mk.inj heq
      obtain rfl := value_of_source (mem_read hsplit) hlabel
      exact hlabel
    · intro hlabel
      obtain ⟨before', after', hsplit', henters⟩ := entered_of_entry hlabel (h.effect _ hlabel)
      rwa [split_unique (pairwise_read input) hsplit hsplit']

/-- If the label lines are entered, and nothing else is, no label line is lost. -/
theorem EntersLabels.noneLost (h : EntersLabels input) :
    NoneLost (tableBehind (readSource input).lines) input := by
  have heffect : ∀ label ∈ sourceLabels input,
      (label.1.copy 63, label.2) ∈ labelEntries (tableBehind (readSource input).lines) := by
    intro label hlabel
    obtain ⟨before, after, hsplit⟩ := List.append_of_mem (mem_labelsIn.mp (h.read label hlabel))
    exact mem_labelEntries.mpr ⟨before, label.1, label.2, after, hsplit,
      (h.enters before label.1 label.2 after hsplit).mpr hlabel, rfl⟩
  refine ⟨?_, heffect, h.once⟩
  have hsame : ∀ pair, pair ∈ lineEntries input ↔
      pair ∈ labelEntries (tableBehind (readSource input).lines) := by
    intro pair
    constructor
    · intro hpair
      obtain ⟨label, hlabel, rfl⟩ := List.mem_map.mp hpair
      exact heffect label hlabel
    · intro hpair
      obtain ⟨before, name, number, after, hsplit, hentered, rfl⟩ := mem_labelEntries.mp hpair
      exact List.mem_map_of_mem (f := fun label => (label.1.copy 63, label.2))
        ((h.enters before name number after hsplit).mp hentered)
  have hperm := (List.perm_ext_iff_of_nodup (nodup_lineEntries input)
    (nodup_labelEntries input)).mpr hsame
  rw [← hperm.length_eq, lineEntries, List.length_map]

/-- An accepted text has each of its label lines in the symbol table, and no other label, exactly if
the parser takes the label lines and no others for labels and each name is new when it comes: a
label that is refused is no error. -/
theorem labels_kept_iff (stale : ℕ → Word → ℕ → Word) (input : List Byte)
    (output : CArray Word capacity)
    (h : (parserParse stale (parserInit input symbolTableInit output)).1 = true) :
    NoneLost (parserParse stale (parserInit input symbolTableInit output)).2.symbolTable input ↔
      EntersLabels input := by
  have hentries : SameEntries (sourceWords stale symbolTableInit input).2
      (literalTable symbolTableInit input) :=
    encodeAll_entries (stale 2) 0#32 (sourceInstructions input) ⟨rfl, rfl⟩
  have hlabels : labelEntries
      (parserParse stale (parserInit input symbolTableInit output)).2.symbolTable =
        labelEntries (tableBehind (readSource input).lines) := by
    rw [(parserParse_eq h).2.1, labelEntries, hentries.1]
    exact labelEntries_literals _ _
  constructor
  · rintro ⟨hnumber, heffect, honce⟩
    rw [hlabels] at hnumber heffect
    exact NoneLost.enters ⟨hnumber, heffect, honce⟩
  · intro henters
    obtain ⟨hnumber, heffect, honce⟩ := henters.noneLost
    rw [← hlabels] at hnumber heffect
    exact ⟨hnumber, heffect, honce⟩

/-- A label twice. -/
def labelTwice : List Byte := bytes "A:\nNOP\nA:\n"

theorem labels_kept_iff_labelTwice :
    NoneLost (parserParse (fun _ _ _ => 0) (parserInit labelTwice symbolTableInit
        (fun _ : Fin 1 => 0))).2.symbolTable labelTwice ↔
      EntersLabels labelTwice :=
  labels_kept_iff (fun _ _ _ => 0) labelTwice (fun _ => 0) (by decide)

/-- The text is accepted with one entry for the two. -/
theorem label_lost :
    ¬ ∀ (capacity : ℕ) stale input (output : CArray Word capacity),
      (parserParse stale (parserInit input symbolTableInit output)).1 = true →
      (labelEntries (parserParse stale
          (parserInit input symbolTableInit output)).2.symbolTable).length =
        (sourceLabels input).length := by
  intro h
  have hnumber := h 1 (fun _ _ _ => 0) labelTwice (fun _ => 0) (by decide)
  exact absurd hnumber (by decide)

end source

end Dez.Assembler
