import PropCalc.ParseError
import PropCalc.Proofs.Lexing
/-!
# Longest match

Reading takes the first spelling of the table that fits, and variables only where none does. What it
takes is nevertheless the longest lexical item with which the text begins:

* `Lexeme.startOf?_eq_some_iff` and `startOf?_eq_none_iff` — one item, at one place;
* `Scan.longestCut_iff` — so a scan is the one cut of the text into longest items, up to the first
  character at which no item begins;
* `Scan.LongestCut.exists_layout` — the items and the blanks between them are all of the text that
  was read, each in its place;
* `tokenize_is_longest_cut` — what tokenizing answers, and why no digit is ever read.
-/

namespace PropCalc

/-! ## One item -/

namespace Lexeme

/-- The text begins with the lexical item, and with no longer one. -/
structure IsLongest (l : Lexeme) (cs : List Char) : Prop where
  fits : l.Fits cs
  longest : ∀ m : Lexeme, m.Fits cs → m.chars.length ≤ l.chars.length

theorem not_fits_nil (l : Lexeme) : ¬ l.Fits [] := by
  intro h
  exact h.accepted.chars_ne_nil (List.prefix_nil.1 h.start)

/-- A text that begins with a spelling has a spelling at its start, and that is what is found. -/
theorem exists_startOf?_of_fits_operator {t : Spelling} {cs : List Char}
    (h : (operator t).Fits cs) :
    ∃ s, Spelling.startOf? cs = some s ∧ startOf? cs = some (operator s) := by
  have ht : t ∈ Spelling.all := h.accepted
  have hstart : t.chars <+: cs := h.start
  rcases Spelling.exists_startOf? ht hstart with ⟨s, hs⟩
  refine ⟨s, hs, ?_⟩
  rcases Spelling.head_chars t ht with ⟨hopen, hclose⟩
  cases cs with
  | nil => exact absurd h (not_fits_nil _)
  | cons c cs =>
    cases hchars : t.chars with
    | nil => exact absurd hchars (Spelling.chars_ne_nil t ht)
    | cons x tail =>
      -- the text begins as the spelling does, so with no parenthesis
      rw [hchars] at hstart hopen hclose
      obtain rfl := (List.cons_prefix_cons.1 hstart).1
      rw [startOf?, if_neg (by simpa using hopen), if_neg (by simpa using hclose), hs]

/-- Where an item fits, one is found. -/
theorem startOf?_ne_none_of_fits {m : Lexeme} {cs : List Char} (h : m.Fits cs) :
    startOf? cs ≠ none := by
  cases m with
  | lparen =>
    rcases h.start with ⟨rest, rfl⟩
    exact Option.some_ne_none _
  | rparen =>
    rcases h.start with ⟨rest, rfl⟩
    exact Option.some_ne_none _
  | operator t =>
    rcases exists_startOf?_of_fits_operator h with ⟨s, -, hs⟩
    rw [hs]
    exact Option.some_ne_none _
  | letter c =>
    rcases h.start with ⟨rest, rfl⟩
    -- at a letter the last branch is reached, if none before it finds an item
    have hc : isVariableLetter c = true := h.accepted
    simp only [chars, List.cons_append, startOf?]
    split
    · exact Option.some_ne_none _
    split
    · exact Option.some_ne_none _
    split
    · exact Option.some_ne_none _
    · exact Option.some_ne_none _

theorem startOf?_eq_none_iff {cs : List Char} : startOf? cs = none ↔ ∀ l : Lexeme, ¬ l.Fits cs := by
  constructor
  · intro h l hfits
    exact startOf?_ne_none_of_fits hfits h
  · intro h
    cases hfound : startOf? cs with
    | none => rfl
    | some l => exact absurd (fits_of_startOf? hfound) (h l)

/-- No item that fits is longer than the one that is found. -/
theorem length_le_of_startOf? {l m : Lexeme} {cs : List Char} (h : startOf? cs = some l)
    (hm : m.Fits cs) : m.chars.length ≤ l.chars.length := by
  have hpos : 1 ≤ l.chars.length :=
    List.length_pos_iff.2 (fits_of_startOf? h).accepted.chars_ne_nil
  -- only a spelling has more than one character
  cases m with
  | lparen => exact hpos
  | rparen => exact hpos
  | letter c => exact hpos
  | operator t =>
    rcases exists_startOf?_of_fits_operator hm with ⟨s, hs, hfound⟩
    rw [h] at hfound
    cases hfound
    exact Spelling.length_le_of_startOf? hs hm.accepted hm.start

/-- An item by itself is found. -/
theorem startOf?_chars {l : Lexeme} (h : l.IsAccepted) : startOf? l.chars = some l := by
  cases l with
  | lparen => rfl
  | rparen => rfl
  | operator s => simpa [chars] using @startOf?_operator s h [] rfl
  | letter c => exact startOf?_letter h (by simp)

/-- A lexical item is known from its characters. -/
theorem IsAccepted.eq_of_chars_eq {l m : Lexeme} (hl : l.IsAccepted) (hm : m.IsAccepted)
    (h : l.chars = m.chars) : l = m := by
  have hfound := startOf?_chars hl
  rw [h, startOf?_chars hm] at hfound
  exact (Option.some.inj hfound).symm

/-- The item that is found is the longest one that fits. -/
theorem startOf?_eq_some_iff {l : Lexeme} {cs : List Char} :
    startOf? cs = some l ↔ l.IsLongest cs := by
  constructor
  · intro h
    exact ⟨fits_of_startOf? h, fun m hm => length_le_of_startOf? h hm⟩
  · intro h
    obtain ⟨m, hm⟩ := Option.ne_none_iff_exists'.1 (startOf?_ne_none_of_fits h.fits)
    have hfits := fits_of_startOf? hm
    -- two items that are both longest have the same characters
    have hlength : l.chars.length = m.chars.length :=
      Nat.le_antisymm (length_le_of_startOf? hm h.fits) (h.longest m hfits)
    have hchars : l.chars = m.chars :=
      (List.prefix_of_prefix_length_le h.fits.start hfits.start (Nat.le_of_eq hlength)).eq_of_length hlength
    rw [hm, h.fits.accepted.eq_of_chars_eq hfits.accepted hchars]

/-- An item is the longest that fits if the text ends behind it or a blank follows, as no item goes
on across a blank. -/
theorem IsAccepted.isLongest_append {l : Lexeme} (h : l.IsAccepted) {rest : List Char}
    (hrest : ∀ c, rest.head? = some c → isBlank c = true) : l.IsLongest (l.chars ++ rest) := by
  refine ⟨⟨h, List.prefix_append _ _⟩, fun m hm => Nat.le_of_not_lt fun hlt => ?_⟩
  rcases List.prefix_of_prefix_length_le (List.prefix_append l.chars rest) hm.start
      (Nat.le_of_lt hlt) with
    ⟨more, hmore⟩
  have hstart := hm.start
  rw [← hmore, List.prefix_append_right_inj] at hstart
  cases more with
  | nil => simp [← hmore] at hlt
  | cons c more =>
    -- the longer item would contain the blank that follows
    rcases hstart with ⟨last, hlast⟩
    have hblank := hrest c (by simp [← hlast])
    have hnot := hm.accepted.isBlank_eq_false (c := c) (by simp [← hmore])
    rw [hblank] at hnot
    cases hnot

end Lexeme

/-! ## Whole texts -/

namespace Scan

/-- A text that is cut from left to right: blanks are skipped, at any other place the longest item
is taken, and the cut ends with the text or at the first character where no item begins. -/
inductive LongestCut : Nat → List Char → Scan → Prop where
  | stop (offset : Nat) : LongestCut offset [] ⟨[], none⟩
  | blank {offset : Nat} {c : Char} {cs : List Char} {s : Scan} :
      isBlank c = true → LongestCut (offset + 1) cs s → LongestCut offset (c :: cs) s
  | item {offset : Nat} {l : Lexeme} {cs : List Char} {s : Scan} :
      l.IsLongest (l.chars ++ cs) → LongestCut (offset + l.chars.length) cs s →
      LongestCut offset (l.chars ++ cs) ⟨⟨l, offset⟩ :: s.tokens, s.illegal?⟩
  | illegal {offset : Nat} {c : Char} {cs : List Char} :
      isBlank c = false → (∀ l : Lexeme, ¬ l.Fits (c :: cs)) →
      LongestCut offset (c :: cs) ⟨[], some ⟨c, offset⟩⟩

/-- A scan is a cut into longest items. -/
theorem longestCut_ofChars (offset : Nat) (cs : List Char) :
    LongestCut offset cs (ofChars offset cs) := by
  induction offset, cs using ofChars.induct with
  | case1 offset =>
    rw [ofChars]
    exact .stop offset
  | case2 offset c cs hblank ih =>
    rw [ofChars, if_pos hblank]
    exact .blank hblank ih
  | case3 offset c cs hblank hnone =>
    rw [ofChars_of_startOf?_eq_none (by simpa using hblank) hnone]
    exact .illegal (by simpa using hblank) (Lexeme.startOf?_eq_none_iff.1 hnone)
  | case4 offset c cs hblank l hfound ih =>
    rw [ofChars_of_startOf? hfound]
    rcases (Lexeme.fits_of_startOf? hfound).start with ⟨rest, hrest⟩
    -- the text is split behind the item, as the cut has it
    rw [← hrest, List.drop_left] at ih ⊢
    rw [← hrest] at hfound
    exact .item (Lexeme.startOf?_eq_some_iff.1 hfound) ih

/-- There is no other cut into longest items. -/
theorem LongestCut.eq_ofChars {offset : Nat} {cs : List Char} {s : Scan}
    (h : LongestCut offset cs s) : s = ofChars offset cs := by
  induction h with
  | stop offset => rw [ofChars]
  | blank hblank _ ih => rw [ofChars, if_pos hblank, ih]
  | item hlongest _ ih => rw [ofChars_append (Lexeme.startOf?_eq_some_iff.2 hlongest), ih]
  | illegal hblank hnone =>
    rw [ofChars_of_startOf?_eq_none hblank (Lexeme.startOf?_eq_none_iff.2 hnone)]

theorem longestCut_iff {offset : Nat} {cs : List Char} {s : Scan} :
    LongestCut offset cs s ↔ s = ofChars offset cs := by
  constructor
  · exact LongestCut.eq_ofChars
  · rintro rfl
    exact longestCut_ofChars offset cs

end Scan

/-! ## Layouts -/

/-- A text that is laid out: lexical items, each with what stands before it, and what stands behind
the last one. -/
structure Layout where
  items : List (List Char × Lexeme)
  trailing : List Char
deriving DecidableEq, Repr

namespace Layout

/-- The characters of a layout. -/
def chars (w : Layout) : List Char :=
  (w.items.flatMap fun (gap, l) => gap ++ l.chars) ++ w.trailing

/-- The text of a layout. -/
def text (w : Layout) : String := String.ofList w.chars

/-- The items with the places where they are written, `offset` characters standing before all. -/
def tokensFrom (offset : Nat) : List (List Char × Lexeme) → List Token
  | [] => []
  | (gap, l) :: items =>
    ⟨l, offset + gap.length⟩ :: tokensFrom (offset + gap.length + l.chars.length) items

/-- The tokens of a layout. -/
def tokens (w : Layout) : List Token := tokensFrom 0 w.items

/-- There is nothing but lexical items and blanks. -/
structure IsProper (w : Layout) : Prop where
  accepted : ∀ i ∈ w.items, i.2.IsAccepted
  gaps : ∀ i ∈ w.items, ∀ c ∈ i.1, isBlank c = true
  trailing : ∀ c ∈ w.trailing, isBlank c = true

theorem toList_text (w : Layout) : w.text.toList = w.chars := String.toList_ofList

theorem chars_cons (gap : List Char) (l : Lexeme) (items : List (List Char × Lexeme))
    (trailing : List Char) :
    chars ⟨(gap, l) :: items, trailing⟩ = gap ++ (l.chars ++ chars ⟨items, trailing⟩) := by
  simp [chars]

/-- A blank in front of all. -/
def consBlank (c : Char) (w : Layout) : Layout :=
  match w.items with
  | [] => ⟨[], c :: w.trailing⟩
  | (gap, l) :: items => ⟨(c :: gap, l) :: items, w.trailing⟩

theorem chars_consBlank (c : Char) (w : Layout) : (w.consBlank c).chars = c :: w.chars := by
  rcases w with ⟨_ | ⟨⟨gap, l⟩, items⟩, trailing⟩ <;> simp [consBlank, chars]

theorem tokensFrom_consBlank (offset : Nat) (c : Char) (w : Layout) :
    tokensFrom offset (w.consBlank c).items = tokensFrom (offset + 1) w.items := by
  rcases w with ⟨_ | ⟨⟨gap, l⟩, items⟩, trailing⟩
  · rfl
  · simp only [consBlank, tokensFrom, List.length_cons]
    rw [show offset + (gap.length + 1) = offset + 1 + gap.length by omega]

theorem IsProper.consBlank {c : Char} {w : Layout} (h : w.IsProper) (hc : isBlank c = true) :
    (w.consBlank c).IsProper := by
  rcases w with ⟨_ | ⟨⟨gap, l⟩, items⟩, trailing⟩
  · exact ⟨by simp [Layout.consBlank], by simp [Layout.consBlank],
      by simpa [Layout.consBlank, hc] using h.trailing⟩
  · exact ⟨by simpa [Layout.consBlank] using h.accepted,
      by simpa [Layout.consBlank, hc] using h.gaps, h.trailing⟩

theorem IsProper.cons {l : Lexeme} {w : Layout} (h : w.IsProper) (hl : l.IsAccepted) :
    IsProper ⟨([], l) :: w.items, w.trailing⟩ :=
  ⟨by simpa [hl] using h.accepted, by simpa using h.gaps, h.trailing⟩

end Layout

/-- What was read is laid out as items and blanks, and the scan ends with the text or at the first
character behind the layout. -/
theorem Scan.LongestCut.exists_layout {offset : Nat} {cs : List Char} {s : Scan}
    (h : LongestCut offset cs s) :
    ∃ (w : Layout) (rest : List Char), w.IsProper ∧ cs = w.chars ++ rest ∧
      Layout.tokensFrom offset w.items = s.tokens ∧
      s.illegal? = rest.head?.map fun c => ⟨c, offset + w.chars.length⟩ := by
  induction h with
  | stop offset => exact ⟨⟨[], []⟩, [], ⟨by simp, by simp, by simp⟩, rfl, rfl, rfl⟩
  -- a blank joins the gap before the next item, or what stands behind the last
  | @blank offset c cs s hblank _ ih =>
    rcases ih with ⟨w, rest, hw, rfl, htokens, hillegal⟩
    refine ⟨w.consBlank c, rest, hw.consBlank hblank, ?_, ?_, ?_⟩
    · rw [Layout.chars_consBlank, List.cons_append]
    · rw [Layout.tokensFrom_consBlank, htokens]
    · rw [hillegal, Layout.chars_consBlank, List.length_cons,
        show offset + 1 + w.chars.length = offset + (w.chars.length + 1) by omega]
  | @item offset l cs s hlongest _ ih =>
    rcases ih with ⟨w, rest, hw, rfl, htokens, hillegal⟩
    refine ⟨⟨([], l) :: w.items, w.trailing⟩, rest, hw.cons hlongest.fits.accepted, ?_, ?_, ?_⟩
    · simp [Layout.chars_cons]
    · simp [Layout.tokensFrom, htokens]
    · simp [hillegal, Layout.chars_cons, Nat.add_assoc]
  | @illegal offset c cs _ _ =>
    exact ⟨⟨[], []⟩, c :: cs, ⟨by simp, by simp, by simp⟩, rfl, rfl, rfl⟩

/-! ## Digits -/

/-- No spelling contains a digit. -/
theorem Spelling.any_isDigit : ∀ s ∈ all, s.chars.any Text.isDigit = false := by decide +kernel

theorem isDigit_of_isBlank {c : Char} (h : isBlank c = true) : Text.isDigit c = false := by
  simp only [isBlank, Bool.or_eq_true, beq_iff_eq] at h
  rcases h with ((rfl | rfl) | rfl) | rfl <;> decide

/-- The small letters follow one another, so it is enough to look at each of them. -/
theorem isDigit_of_isVariableLetter {c : Char} (h : isVariableLetter c = true) :
    Text.isDigit c = false := by
  have hrange : 97 ≤ c.toNat ∧ c.toNat ≤ 122 := by
    simp only [isVariableLetter, Bool.and_eq_true, decide_eq_true_eq] at h
    exact h.1
  -- evaluated letter by letter, as the table of digits has no structure to argue with
  have hletters : ∀ k : Fin 26, Text.isDigit (Char.ofNat (97 + k)) = false := by decide +kernel
  have hc := hletters ⟨c.toNat - 97, by omega⟩
  rwa [Nat.add_sub_cancel' hrange.1, Char.ofNat_toNat] at hc

/-- No lexical item contains a digit. -/
theorem Lexeme.IsAccepted.isDigit_eq_false {l : Lexeme} (h : l.IsAccepted) {c : Char}
    (hc : c ∈ l.chars) : Text.isDigit c = false := by
  cases l with
  | lparen =>
    obtain rfl := List.mem_singleton.1 hc
    decide
  | rparen =>
    obtain rfl := List.mem_singleton.1 hc
    decide
  | operator s => simpa using List.any_eq_false.1 (Spelling.any_isDigit s h) c hc
  | letter x =>
    obtain rfl := List.mem_singleton.1 hc
    exact isDigit_of_isVariableLetter h

/-- Where there is nothing but items and blanks there is no digit. -/
theorem Layout.IsProper.isDigit_eq_false {w : Layout} (h : w.IsProper) {c : Char}
    (hc : c ∈ w.chars) : Text.isDigit c = false := by
  rcases List.mem_append.1 hc with hc | hc
  · rcases List.mem_flatMap.1 hc with ⟨⟨gap, l⟩, hi, hc⟩
    rcases List.mem_append.1 hc with hc | hc
    · exact isDigit_of_isBlank (h.gaps _ hi c hc)
    · exact (h.accepted _ hi).isDigit_eq_false hc
  · exact isDigit_of_isBlank (h.trailing c hc)

/-- The wording for an illegal character speaks of numbers exactly for digits. -/
theorem ParseError.message_illegal_iff (bad : IllegalCharacter) :
    (illegal bad).message = "numbers are not valid variables" ↔ Text.isDigit bad.char = true := by
  show illegalMessage bad = _ ↔ _
  unfold illegalMessage
  cases Text.isDigit bad.char with
  | true => exact iff_of_true rfl rfl
  | false =>
    refine iff_of_false (fun hmessage => ?_) Bool.false_ne_true
    -- the two wordings begin with different letters
    have hhead := congrArg (fun s : String => s.toList.head?) hmessage
    have hfirst : "Illegal character '".toList.head? = some 'I' := by decide
    simp only [Bool.false_eq_true, if_false, String.toList_append, List.append_assoc,
      List.head?_append, hfirst, Option.some_or] at hhead
    exact absurd hhead (by decide)

/-! ## Tokenizing -/

/-- The answer of tokenizing is that of the scan. -/
theorem tokenize_eq (text : String) :
    tokenize text = match (Scan.ofString text).illegal? with
      | some bad => .error (.illegal bad)
      | none => .ok ((Scan.ofString text).tokens,
          (Token.dialect? (Scan.ofString text).tokens).getD .logic) := rfl

/-- A text has exactly one cut into longest items, and tokenizing answers with it. If the cut
reaches the end of the text, the tokens and the blanks between them are the text, and no character
of it is a digit. Otherwise the error names the first character where no item begins, the tokens and
blanks before it are the text up to there, and the message speaks of numbers exactly for a digit. -/
theorem tokenize_is_longest_cut (text : String) :
    ∃ s : Scan, (∀ s', Scan.LongestCut 0 text.toList s' ↔ s' = s) ∧
      ∃ (w : Layout) (rest : List Char), w.IsProper ∧ text.toList = w.chars ++ rest ∧
        w.tokens = s.tokens ∧
        match s.illegal? with
        | none => rest = [] ∧
            tokenize text = .ok (s.tokens, (Token.dialect? s.tokens).getD .logic) ∧
            ∀ c ∈ text.toList, Text.isDigit c = false
        | some bad => rest.head? = some bad.char ∧ bad.offset = w.chars.length ∧
            tokenize text = .error (.illegal bad) ∧ (ParseError.illegal bad).kind = .invalid ∧
            ((ParseError.illegal bad).message = "numbers are not valid variables" ↔
              Text.isDigit bad.char = true) := by
  rcases (Scan.longestCut_ofChars 0 text.toList).exists_layout with
    ⟨w, rest, hw, htext, htokens, hillegal⟩
  refine ⟨Scan.ofString text, fun s' => Scan.longestCut_iff, w, rest, hw, htext, htokens, ?_⟩
  have htokenize := tokenize_eq text
  cases hrest : rest with
  | nil =>
    have hnone : (Scan.ofString text).illegal? = none := by
      rw [Scan.ofString, hillegal, hrest]
      rfl
    rw [hnone] at htokenize ⊢
    refine ⟨rfl, htokenize, fun c hc => hw.isDigit_eq_false ?_⟩
    rwa [htext, hrest, List.append_nil] at hc
  | cons c tail =>
    have hsome : (Scan.ofString text).illegal? = some ⟨c, w.chars.length⟩ := by
      rw [Scan.ofString, hillegal, hrest, Nat.zero_add]
      rfl
    rw [hsome] at htokenize ⊢
    exact ⟨rfl, rfl, htokenize, rfl, ParseError.message_illegal_iff _⟩

end PropCalc
