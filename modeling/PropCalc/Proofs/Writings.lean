import PropCalc.Proofs.LongestMatch
import PropCalc.Proofs.Reading
import PropCalc.Proofs.Rejection
/-!
# Writings

One sequence of lexical items can be written in many ways: each operator has several spellings, and
blanks may be strewn in. What is read does not depend on the way it was written:

* `Layout.IsSpaced.longestCut` — items that stand apart are found again, each in its place;
* `readAlike_ofTokens` — tokens form an expression or are rejected by their symbols alone, whatever
  their places, their spellings and the dialect;
* `writings_read_alike` — so two writings of one sequence are read alike.
-/

namespace PropCalc

/-! ## Items that stand apart -/

namespace Layout

/-- There is nothing but lexical items and blanks, and neighbours are kept apart by blanks. -/
structure IsSpaced (w : Layout) : Prop extends w.IsProper where
  apart : ∀ i ∈ w.items.tail, i.1 ≠ []

/-- What is written, regardless of spellings and blanks. -/
def symbols (w : Layout) : List Symbol := w.items.map fun i => i.2.symbol

/-- The dialect of the first operator as it is spelled; logic if there is none. -/
def dialect (w : Layout) : Dialect :=
  ((w.items.findSome? fun i => i.2.spelling?).map (·.dialect)).getD .logic

theorem map_lexeme_tokensFrom (offset : Nat) (items : List (List Char × Lexeme)) :
    (tokensFrom offset items).map Token.lexeme = items.map (·.2) := by
  induction items generalizing offset with
  | nil => rfl
  | cons i items ih =>
    rw [tokensFrom, List.map_cons, List.map_cons, ih]

theorem map_symbol_tokens (w : Layout) : w.tokens.map Token.symbol = w.symbols := by
  have hlexemes := congrArg (List.map Lexeme.symbol) (map_lexeme_tokensFrom 0 w.items)
  rw [List.map_map, List.map_map] at hlexemes
  exact hlexemes

theorem dialect_tokens (w : Layout) : (Token.dialect? w.tokens).getD .logic = w.dialect := by
  have hlexemes := congrArg (List.findSome? Lexeme.spelling?) (map_lexeme_tokensFrom 0 w.items)
  rw [List.findSome?_map, List.findSome?_map] at hlexemes
  rw [dialect, Token.dialect?, Token.firstSpelling?]
  exact congrArg (fun s => (Option.map Spelling.dialect s).getD .logic) hlexemes

theorem IsSpaced.tail {i : List Char × Lexeme} {items : List (List Char × Lexeme)}
    {trailing : List Char} (h : IsSpaced ⟨i :: items, trailing⟩) : IsSpaced ⟨items, trailing⟩ where
  accepted := fun j hj => h.accepted j (List.mem_cons_of_mem i hj)
  gaps := fun j hj => h.gaps j (List.mem_cons_of_mem i hj)
  trailing := h.trailing
  apart := fun j hj => h.apart j (List.mem_of_mem_tail hj)

/-- Behind an item comes a blank, if anything. -/
theorem IsSpaced.isBlank_behind {i : List Char × Lexeme} {items : List (List Char × Lexeme)}
    {trailing : List Char} (h : IsSpaced ⟨i :: items, trailing⟩) {c : Char}
    (hc : (chars ⟨items, trailing⟩).head? = some c) : isBlank c = true := by
  -- the blank belongs to the next gap, or to what stands behind the last item
  cases items with
  | nil => exact h.trailing c (List.mem_of_mem_head? hc)
  | cons j items =>
    cases hgap : j.1 with
    | nil => exact absurd hgap (h.apart j List.mem_cons_self)
    | cons x gap =>
      rw [chars_cons, hgap, List.cons_append, List.head?_cons] at hc
      obtain rfl := Option.some.inj hc
      exact h.gaps j (by simp) x (by simp [hgap])

end Layout

/-- A scan skips a run of blanks. -/
theorem Scan.LongestCut.blanks {gap cs : List Char} {s : Scan} {offset : Nat}
    (hgap : ∀ c ∈ gap, isBlank c = true) (h : LongestCut (offset + gap.length) cs s) :
    LongestCut offset (gap ++ cs) s := by
  induction gap generalizing offset with
  | nil => exact h
  | cons c gap ih =>
    rw [List.length_cons, ← Nat.add_assoc, Nat.add_right_comm] at h
    exact .blank (hgap c List.mem_cons_self) (ih (fun x hx => hgap x (List.mem_cons_of_mem c hx)) h)

/-- Items that stand apart are found again, each in its place. -/
theorem Layout.IsSpaced.longestCut {items : List (List Char × Lexeme)} {trailing : List Char}
    (h : IsSpaced ⟨items, trailing⟩) (offset : Nat) :
    Scan.LongestCut offset (chars ⟨items, trailing⟩) ⟨tokensFrom offset items, none⟩ := by
  induction items generalizing offset with
  | nil =>
    -- behind the last item the scan skips the trailing blanks and ends
    have hstop := @Scan.LongestCut.blanks trailing [] _ offset h.trailing (.stop _)
    simpa [chars, tokensFrom] using hstop
  | cons i items ih =>
    rcases i with ⟨gap, l⟩
    rw [chars_cons]
    refine .blanks (h.gaps (gap, l) List.mem_cons_self) ?_
    exact .item ((h.accepted (gap, l) List.mem_cons_self).isLongest_append fun c hc =>
      h.isBlank_behind hc) (ih h.tail _)

/-- A text whose items stand apart is cut into exactly these items. -/
theorem Layout.IsSpaced.tokenize_text {w : Layout} (h : w.IsSpaced) :
    tokenize w.text = .ok (w.tokens, w.dialect) := by
  have hscan : Scan.ofString w.text = ⟨w.tokens, none⟩ := by
    rw [Scan.ofString, toList_text]
    exact (h.longestCut 0).eq_ofChars.symm
  rw [tokenize_eq, hscan, ← dialect_tokens]

/-! ## Symbols are all that counts -/

/-- Two texts were read alike: as the same formula with the same names, or with errors of one
kind. -/
def ReadAlike : Except ParseError Expression → Except ParseError Expression → Prop
  | .ok e, .ok e' => e.root.same e'.root = true ∧ e.names = e'.names
  | .error e, .error e' => e.kind = e'.kind
  | _, _ => False

/-- The grammar builds the same formula with the marks of another dialect. -/
theorem Grammar.Reads.marked {d : Dialect} {p : Phrase} {w : List Symbol} {f : Formula}
    (h : Reads d p w f) (e : Dialect) : Reads e p w (f.marked e) := by
  induction h with
  | single _ ih => exact .single ih
  | joined c _ _ ihw ihv => exact .joined c ihw ihv
  | negated _ ih =>
    rw [Formula.marked_negate]
    exact .negated ih
  | group _ ih => exact .group ih
  | letter c => exact .letter c

/-- Tokens with the same symbols form the same expression but for its dialect. -/
theorem ofTokens_of_symbols_eq {d d' : Dialect} {ts ts' : List Token} {e : Expression}
    (hsymbols : ts'.map Token.symbol = ts.map Token.symbol)
    (h : Expression.ofTokens d ts = .ok e) :
    Expression.ofTokens d' ts' = .ok ⟨e.root.marked d', d'⟩ := by
  have hreads := (ofTokens_eq_ok_iff.1 h).2.marked d'
  rw [← hsymbols] at hreads
  exact ofTokens_of_reads hreads

/-- Tokens with the same symbols are read alike, whatever their places and the dialect. -/
theorem readAlike_ofTokens {d d' : Dialect} {ts ts' : List Token}
    (hsymbols : ts'.map Token.symbol = ts.map Token.symbol) :
    ReadAlike (Expression.ofTokens d' ts') (Expression.ofTokens d ts) := by
  cases h : Expression.ofTokens d ts with
  | ok e =>
    rw [ofTokens_of_symbols_eq hsymbols h]
    exact ⟨Formula.same_marked d' e.root, Formula.names_marked d' e.root⟩
  | error e =>
    cases h' : Expression.ofTokens d' ts' with
    | ok e' =>
      -- then the other tokens would form an expression as well
      have hok : Expression.ofTokens d ts = .ok _ := ofTokens_of_symbols_eq hsymbols.symm h'
      rw [h] at hok
      cases hok
    | error e' =>
      -- the kind depends on the parentheses, and these are symbols
      have hkind := ofTokens_eq_error_kind h
      have hkind' := ofTokens_eq_error_kind h'
      rw [hsymbols, ← hkind] at hkind'
      show e'.kind = e.kind
      cases hk : e.kind <;> cases hk' : e'.kind <;> simp_all

/-- Two writings of one sequence of lexical items, with spellings and blanks of their own choice, are
read alike. Each is cut into its items, every item in its place, in the dialect of its first operator
as it is spelled there. -/
theorem writings_read_alike (w : Layout) (hw : w.IsSpaced) :
    tokenize w.text = .ok (w.tokens, w.dialect) ∧ w.tokens.map Token.symbol = w.symbols ∧
    ∀ v : Layout, v.IsSpaced → v.symbols = w.symbols →
      ReadAlike (Expression.parse v.text) (Expression.parse w.text) := by
  refine ⟨hw.tokenize_text, w.map_symbol_tokens, fun v hv hsymbols => ?_⟩
  rw [parse_of_tokenize hv.tokenize_text, parse_of_tokenize hw.tokenize_text]
  refine readAlike_ofTokens ?_
  rw [Layout.map_symbol_tokens, Layout.map_symbol_tokens, hsymbols]

/-- Spellings of four dialects, blanks of all sorts, and a variable letter with which a spelling of
the other writing begins. -/
theorem writings_read_alike_mixed :
    let w : Layout := ⟨[(['\t'], .operator ⟨"NOT", .not, .pseudo⟩), ([' '], .lparen),
      (['\n'], .letter 'n'), ([' ', '\r'], .operator ⟨"-*", .binary .nand, .boolean⟩),
      ([' '], .letter 'o'), ([' '], .rparen), ([' '], .operator ⟨"||", .binary .or, .code⟩),
      (['\t', ' '], .operator ⟨"-", .not, .boolean⟩), ([' '], .letter 'i')], ['\n']⟩
    let v : Layout := ⟨[([], .operator ⟨"~", .not, .logic⟩), ([' '], .lparen),
      ([' '], .letter 'n'), ([' '], .operator ⟨"nand", .binary .nand, .pseudo⟩),
      ([' '], .letter 'o'), ([' '], .rparen), ([' '], .operator ⟨"or", .binary .or, .pseudo⟩),
      ([' '], .operator ⟨"!", .not, .code⟩), ([' '], .letter 'i')], []⟩
    w.IsSpaced ∧ v.IsSpaced ∧ v.symbols = w.symbols ∧
      tokenize w.text = .ok (w.tokens, .pseudo) ∧
      ReadAlike (Expression.parse v.text) (Expression.parse w.text) := by
  intro w v
  have hw : w.IsSpaced :=
    ⟨⟨by decide, by simp [w, isBlank], by simp [w, isBlank]⟩, by simp [w]⟩
  have hv : v.IsSpaced := ⟨⟨by decide, by simp [v, isBlank], by simp [v]⟩, by simp [v]⟩
  have hread := writings_read_alike w hw
  exact ⟨hw, hv, by decide, hread.1, hread.2.2 v hv (by decide)⟩

end PropCalc
