import PropCalc.Scan
/-!
# Cutting a text that is known

The table of spellings is tried in order, and no spelling begins with one that is tried before it: so
what is found at the start of a text is the longest spelling there. To show that an operator is found
it is enough to look at the character behind it: four characters prolong a spelling, all others end
it.

`Lexeme.Fits` says that a text begins with a lexical item that is accepted. `Scan.Lexes` says that a
text consists of the given lexical items with blanks between them, where each item is the one that
reading finds. A scan of such a text answers with exactly these items.
-/

namespace PropCalc

/-! ## The table of spellings -/

namespace Spelling

/-- No spelling begins with one that is tried before it. -/
theorem pairwise_all : all.Pairwise fun s t => s.chars.isPrefixOf t.chars = false := by decide

/-- The characters that can prolong a spelling to a longer one. -/
def prolongs (c : Char) : Bool := c == '>' || c == '*' || c == '+' || c == '|'

theorem prolongs_of_isPrefixOf : ∀ s ∈ all, ∀ t ∈ all, s.chars.isPrefixOf t.chars = true →
    t = s ∨ (t.chars.drop s.chars.length).head?.any prolongs = true := by decide

/-- A spelling does not begin with a parenthesis. -/
theorem head_chars : ∀ s ∈ all, s.chars.head? ≠ some '(' ∧ s.chars.head? ≠ some ')' := by decide

/-- No spelling contains a blank. -/
theorem any_isBlank : ∀ s ∈ all, s.chars.any isBlank = false := by decide

/-- A spelling that begins with a variable letter goes on with something else than the characters
that may stand behind a variable. -/
theorem second_char : ∀ s ∈ all, s.chars.head?.any isVariableLetter = true →
    s.chars[1]? ≠ none ∧ s.chars[1]? ≠ some ' ' ∧ s.chars[1]? ≠ some ')' := by decide

theorem startOf?_eq_some {s : Spelling} {cs : List Char} (h : startOf? cs = some s) :
    s ∈ all ∧ s.chars <+: cs := by
  refine ⟨List.mem_of_find?_eq_some h, List.isPrefixOf_iff_prefix.1 ?_⟩
  exact List.find?_some (p := fun s : Spelling => s.chars.isPrefixOf cs) h

/-- Where a spelling fits, one is found. -/
theorem exists_startOf? {t : Spelling} {cs : List Char} (ht : t ∈ all) (hfits : t.chars <+: cs) :
    ∃ s, startOf? cs = some s := by
  refine Option.ne_none_iff_exists'.1 fun hnone => ?_
  exact List.find?_eq_none.1 hnone t ht (List.isPrefixOf_iff_prefix.2 hfits)

/-- The spelling that is found is the longest that fits, as no spelling begins with an earlier
one. -/
theorem length_le_of_startOf? {s t : Spelling} {cs : List Char} (h : startOf? cs = some s)
    (ht : t ∈ all) (hfits : t.chars <+: cs) : t.chars.length ≤ s.chars.length := by
  rcases List.find?_eq_some_iff_append.1 h with ⟨hs, before, after, hall, hbefore⟩
  have hstart : s.chars <+: cs := List.isPrefixOf_iff_prefix.1 hs
  have hpair := pairwise_all
  rw [hall] at ht hpair
  rcases List.mem_append.1 ht with ht | ht
  · -- an earlier spelling that fits would have been found
    have hnot := hbefore t ht
    rw [List.isPrefixOf_iff_prefix.2 hfits] at hnot
    cases hnot
  rcases List.mem_cons.1 ht with rfl | ht
  · exact Nat.le_refl _
  · -- a later spelling that is longer would begin with this one
    rcases List.prefix_or_prefix_of_prefix hfits hstart with hp | hp
    · exact hp.length_le
    · have hnot := (List.pairwise_cons.1 (List.pairwise_append.1 hpair).2.1).1 t ht
      rw [List.isPrefixOf_iff_prefix.2 hp] at hnot
      cases hnot

/-- A spelling is found at the start of a text unless the next character prolongs it. -/
theorem startOf?_append {s : Spelling} (hs : s ∈ all) {rest : List Char}
    (hrest : rest.head?.any prolongs = false) : startOf? (s.chars ++ rest) = some s := by
  have hfits : s.chars <+: s.chars ++ rest := List.prefix_append s.chars rest
  rcases exists_startOf? hs hfits with ⟨t, ht⟩
  rcases startOf?_eq_some ht with ⟨htall, hstart⟩
  have hlonger : s.chars <+: t.chars :=
    List.prefix_of_prefix_length_le hfits hstart (length_le_of_startOf? ht hs hfits)
  rcases prolongs_of_isPrefixOf s hs t htall (List.isPrefixOf_iff_prefix.2 hlonger) with rfl | hhead
  · exact ht
  · -- a longer spelling would go on with the next character
    exfalso
    rcases hlonger with ⟨more, hmore⟩
    rw [← hmore, List.prefix_append_right_inj] at hstart
    rcases hstart with ⟨last, rfl⟩
    rw [← hmore, List.drop_left] at hhead
    cases more with
    | nil => simp at hhead
    | cons c more => exact absurd (hhead.symm.trans hrest) (by simp)

/-- No operator begins at a variable, if the text ends there or a blank or closing parenthesis
follows. -/
theorem startOf?_letter {c : Char} (hc : isVariableLetter c = true) {rest : List Char}
    (hrest : ∀ x, rest.head? = some x → x = ' ' ∨ x = ')') : startOf? (c :: rest) = none := by
  refine List.find?_eq_none.2 ?_
  intro s hs hfits
  rcases List.isPrefixOf_iff_prefix.1 hfits with ⟨more, hmore⟩
  cases hchars : s.chars with
  | nil => exact chars_ne_nil s hs hchars
  | cons x tail =>
    rw [hchars, List.cons_append, List.cons.injEq] at hmore
    rcases hmore with ⟨rfl, rfl⟩
    rcases second_char s hs (by simpa [hchars] using hc) with ⟨hnone, hblank, hparen⟩
    -- such a spelling has a second character, and it is none of those that may follow
    cases tail with
    | nil => simp [hchars] at hnone
    | cons y tail =>
      rcases hrest y rfl with rfl | rfl
      · simp [hchars] at hblank
      · simp [hchars] at hparen

end Spelling

/-! ## Lexical items at the start of a text -/

theorem isBlank_of_isVariableLetter {c : Char} (h : isVariableLetter c = true) :
    isBlank c = false := by
  cases hb : isBlank c with
  | false => rfl
  | true =>
    simp only [isBlank, Bool.or_eq_true, beq_iff_eq] at hb
    rcases hb with ((rfl | rfl) | rfl) | rfl <;> exact absurd h (by decide)

namespace Lexeme

theorem startOf?_operator {s : Spelling} (hs : s ∈ Spelling.all) {rest : List Char}
    (hrest : rest.head?.any Spelling.prolongs = false) :
    startOf? (s.chars ++ rest) = some (operator s) := by
  rcases Spelling.head_chars s hs with ⟨hopen, hclose⟩
  have hfound := Spelling.startOf?_append hs hrest
  cases hchars : s.chars with
  | nil => exact absurd hchars (Spelling.chars_ne_nil s hs)
  | cons c tail =>
    rw [hchars] at hopen hclose hfound
    rw [List.cons_append] at hfound ⊢
    rw [startOf?, if_neg (by simpa using hopen), if_neg (by simpa using hclose), hfound]

theorem startOf?_letter {c : Char} (hc : isVariableLetter c = true) {rest : List Char}
    (hrest : ∀ x, rest.head? = some x → x = ' ' ∨ x = ')') :
    startOf? (c :: rest) = some (letter c) := by
  -- the parentheses are tried first, and no letter is one
  have hopen : '(' ≠ c := by
    rintro rfl
    exact absurd hc (by decide)
  have hclose : ')' ≠ c := by
    rintro rfl
    exact absurd hc (by decide)
  rw [startOf?, if_neg hopen.symm, if_neg hclose.symm, Spelling.startOf?_letter hc hrest]
  exact if_pos hc

/-- The lexical items that are read: parentheses, the spellings of the table and variable letters. -/
def IsAccepted : Lexeme → Prop
  | lparen | rparen => True
  | operator s => s ∈ Spelling.all
  | letter c => isVariableLetter c = true

instance : DecidablePred IsAccepted
  | lparen | rparen => inferInstanceAs (Decidable True)
  | operator s => inferInstanceAs (Decidable (s ∈ Spelling.all))
  | letter c => inferInstanceAs (Decidable (isVariableLetter c = true))

/-- The text begins with the lexical item. -/
structure Fits (l : Lexeme) (cs : List Char) : Prop where
  accepted : l.IsAccepted
  start : l.chars <+: cs

/-- Only a lexical item with which the text begins is found. -/
theorem fits_of_startOf? {cs : List Char} {l : Lexeme} (h : startOf? cs = some l) : l.Fits cs := by
  cases cs with
  | nil => simp [startOf?] at h
  | cons c cs =>
    -- parentheses, then spellings, then letters, in the order in which they are tried
    simp only [startOf?] at h
    split at h
    · next hc =>
      cases h
      exact ⟨trivial, by simp [chars, hc]⟩
    split at h
    · next hc =>
      cases h
      exact ⟨trivial, by simp [chars, hc]⟩
    split at h
    · next s hs =>
      cases h
      exact ⟨(Spelling.startOf?_eq_some hs).1, (Spelling.startOf?_eq_some hs).2⟩
    · split at h
      · next hc =>
        cases h
        exact ⟨hc, by simp [chars]⟩
      · cases h

/-- No lexical item contains a blank. -/
theorem IsAccepted.isBlank_eq_false {l : Lexeme} (h : l.IsAccepted) {c : Char} (hc : c ∈ l.chars) :
    isBlank c = false := by
  cases l with
  | lparen =>
    obtain rfl := List.mem_singleton.1 hc
    rfl
  | rparen =>
    obtain rfl := List.mem_singleton.1 hc
    rfl
  | operator s => simpa using List.any_eq_false.1 (Spelling.any_isBlank s h) c hc
  | letter x =>
    obtain rfl := List.mem_singleton.1 hc
    exact isBlank_of_isVariableLetter h

theorem IsAccepted.chars_ne_nil {l : Lexeme} (h : l.IsAccepted) : l.chars ≠ [] := by
  cases l with
  | lparen => simp [chars]
  | rparen => simp [chars]
  | operator s => exact Spelling.chars_ne_nil s h
  | letter c => simp [chars]

/-- A lexical item never begins with a blank. -/
theorem isBlank_of_startOf? {c : Char} {cs : List Char} {l : Lexeme}
    (h : startOf? (c :: cs) = some l) : isBlank c = false := by
  have hfits := fits_of_startOf? h
  cases hchars : l.chars with
  | nil => exact absurd hchars hfits.accepted.chars_ne_nil
  | cons x tail =>
    have hstart := hfits.start
    rw [hchars] at hstart
    obtain rfl := (List.cons_prefix_cons.1 hstart).1
    exact hfits.accepted.isBlank_eq_false (by simp [hchars])

end Lexeme

/-! ## Whole texts -/

namespace Scan

/-- The text consists of the lexical items, with blanks between them. -/
inductive Lexes : List Char → List Lexeme → Prop where
  | nil : Lexes [] []
  | blank {c : Char} {cs : List Char} {ls : List Lexeme} :
      isBlank c = true → Lexes cs ls → Lexes (c :: cs) ls
  | item {l : Lexeme} {cs : List Char} {ls : List Lexeme} :
      Lexeme.startOf? (l.chars ++ cs) = some l → Lexes cs ls → Lexes (l.chars ++ cs) (l :: ls)

/-- A scan takes the lexical item that it finds and reads on behind it. -/
theorem ofChars_of_startOf? {c : Char} {cs : List Char} {l : Lexeme}
    (h : Lexeme.startOf? (c :: cs) = some l) (offset : Nat) :
    ofChars offset (c :: cs) =
      ⟨⟨l, offset⟩ ::
        (ofChars (offset + l.chars.length) ((c :: cs).drop l.chars.length)).tokens,
        (ofChars (offset + l.chars.length) ((c :: cs).drop l.chars.length)).illegal?⟩ := by
  rw [ofChars, if_neg (by simp [Lexeme.isBlank_of_startOf? h])]
  split
  · next hnone =>
    rw [h] at hnone
    cases hnone
  · next l' hsome =>
    rw [h] at hsome
    cases hsome
    rfl

/-- A scan stops at a character where no item begins. -/
theorem ofChars_of_startOf?_eq_none {c : Char} {cs : List Char} (hblank : isBlank c = false)
    (h : Lexeme.startOf? (c :: cs) = none) (offset : Nat) :
    ofChars offset (c :: cs) = ⟨[], some ⟨c, offset⟩⟩ := by
  rw [ofChars, if_neg (by simp [hblank])]
  split
  · rfl
  · next l hsome =>
    rw [h] at hsome
    cases hsome

/-- A scan reads on behind the item with which the text begins. -/
theorem ofChars_append {l : Lexeme} {cs : List Char}
    (h : Lexeme.startOf? (l.chars ++ cs) = some l) (offset : Nat) :
    ofChars offset (l.chars ++ cs) =
      ⟨⟨l, offset⟩ :: (ofChars (offset + l.chars.length) cs).tokens,
        (ofChars (offset + l.chars.length) cs).illegal?⟩ := by
  -- the scan drops as many characters as the item has
  have hdrop : (l.chars ++ cs).drop l.chars.length = cs := List.drop_left
  cases htext : l.chars ++ cs with
  | nil =>
    rw [htext] at h
    exact absurd h (by simp [Lexeme.startOf?])
  | cons c tail =>
    rw [htext] at h hdrop
    rw [ofChars_of_startOf? h, hdrop]

/-- A scan finds the lexical items that a text consists of, and nothing else. -/
theorem Lexes.scan {cs : List Char} {ls : List Lexeme} (h : Lexes cs ls) (offset : Nat) :
    (ofChars offset cs).tokens.map Token.lexeme = ls ∧ (ofChars offset cs).illegal? = none := by
  induction h generalizing offset with
  | nil => simp [ofChars]
  | blank hc _ ih =>
    rw [ofChars, if_pos hc]
    exact ih (offset + 1)
  | @item l cs ls hstart _ ih =>
    -- the scan takes this very item and goes on behind it
    have hrest := ih (offset + l.chars.length)
    rw [ofChars_append hstart]
    simp [hrest]

end Scan

end PropCalc
