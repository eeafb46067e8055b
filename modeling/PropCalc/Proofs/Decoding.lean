import PropCalc.Proofs.Valuation
import PropCalc.Proofs.Writings
/-!
# Decoding canonical forms

The canonical form of a text has one character for every token and nothing between them. No two
symbols that can be read have the same character, so the symbols can be found again:

* `map_ofCanonical_canonicalText` — decoding a canonical form gives the symbols of its tokens;
* `canonicalText_eq_iff` — so canonical forms agree exactly if all tokens agree in class and value;
* `canonical_form_determines_expression` — and texts with one canonical form are read as formulas
  that differ in nothing but the dialects of their nodes, or rejected with errors of one kind.
-/

namespace PropCalc

/-! ## Symbols and their characters -/

namespace Symbol

/-- The symbols that are no letters. -/
def fixed : List Symbol := lparen :: rparen :: Operator.all.map operator

theorem eq_letter_or_mem_fixed (x : Symbol) : (∃ c, x = letter c) ∨ x ∈ fixed := by
  rcases x with _ | _ | o | c
  · exact .inr (by decide)
  · exact .inr (by decide)
  · rcases o with _ | (_ | _ | _ | _ | _ | _) <;> exact .inr (by decide)
  · exact .inl ⟨c, rfl⟩

/-- The symbol with the given character in the canonical form. -/
def ofCanonical (c : Char) : Symbol := (fixed.find? fun x => x.canonical == c).getD (letter c)

theorem ofCanonical_of_mem_fixed : ∀ x ∈ fixed, ofCanonical x.canonical = x := by decide

/-- No variable letter stands for anything else in a canonical form. -/
theorem isVariableLetter_of_mem_fixed : ∀ x ∈ fixed, isVariableLetter x.canonical = false := by
  decide

theorem ofCanonical_letter {c : Char} (hc : isVariableLetter c = true) :
    ofCanonical c = letter c := by
  -- a letter shares its character with no fixed symbol, so the search falls through
  have hnone : fixed.find? (fun x => x.canonical == c) = none := by
    refine List.find?_eq_none.2 fun x hx heq => ?_
    have hother := isVariableLetter_of_mem_fixed x hx
    rw [beq_iff_eq.1 heq, hc] at hother
    cases hother
  rw [ofCanonical, hnone, Option.getD_none]

/-- The class and the value of a symbol. -/
def classAndValue (x : Symbol) : String × String := (x.className, x.value)

theorem className_of_mem_fixed : ∀ x ∈ fixed, x.className ≠ "VAR" := by decide

theorem eq_of_className_eq : ∀ x ∈ fixed, ∀ y ∈ fixed, x.className = y.className → x = y := by
  decide

/-- Class and value tell all symbols apart. -/
theorem classAndValue_inj {x y : Symbol} : x.classAndValue = y.classAndValue ↔ x = y := by
  constructor
  · intro h
    rcases Prod.mk.inj h with ⟨hclass, hvalue⟩
    -- letters share one class and differ in value, the fixed symbols differ in class
    rcases eq_letter_or_mem_fixed x with ⟨c, rfl⟩ | hx
    · rcases eq_letter_or_mem_fixed y with ⟨b, rfl⟩ | hy
      · simpa [value, ← String.toList_inj] using hvalue
      · exact absurd hclass.symm (className_of_mem_fixed y hy)
    · rcases eq_letter_or_mem_fixed y with ⟨b, rfl⟩ | hy
      · exact absurd hclass (className_of_mem_fixed x hx)
      · exact eq_of_className_eq x hx y hy hclass
  · rintro rfl
    rfl

end Symbol

/-! ## Canonical forms -/

theorem normalize_of_tokenize {text : String} {ts : List Token} {d : Dialect}
    (h : tokenize text = .ok (ts, d)) : normalize text = .ok (Token.canonicalText ts, d) := by
  rw [normalize, h]
  rfl

/-- Decoding the canonical form of a text gives the symbols of its tokens. -/
theorem map_ofCanonical_canonicalText {text : String} {ts : List Token} {d : Dialect}
    (h : tokenize text = .ok (ts, d)) :
    (Token.canonicalText ts).toList.map Symbol.ofCanonical = ts.map Token.symbol := by
  rw [Token.canonicalText, String.toList_ofList, List.map_map]
  refine List.map_congr_left fun t ht => ?_
  show Symbol.ofCanonical t.symbol.canonical = t.symbol
  -- letters that were read are variable letters, and fixed symbols decode by evaluation
  rcases t.symbol.eq_letter_or_mem_fixed with ⟨c, hc⟩ | hfixed
  · have hmem : Symbol.letter c ∈ ts.map Token.symbol := List.mem_map.2 ⟨t, ht, hc⟩
    rw [hc]
    exact Symbol.ofCanonical_letter (isVariableLetter_of_tokenize h hmem)
  · exact Symbol.ofCanonical_of_mem_fixed _ hfixed

/-- Texts have one canonical form exactly if their tokens have the same symbols. -/
theorem canonicalText_eq_iff {x y : String} {ts us : List Token} {d e : Dialect}
    (hx : tokenize x = .ok (ts, d)) (hy : tokenize y = .ok (us, e)) :
    Token.canonicalText ts = Token.canonicalText us ↔
      ts.map Token.symbol = us.map Token.symbol := by
  constructor
  · intro h
    rw [← map_ofCanonical_canonicalText hx, h, map_ofCanonical_canonicalText hy]
  · intro h
    have hchars := congrArg (List.map Symbol.canonical) h
    rw [List.map_map, List.map_map] at hchars
    exact congrArg String.ofList hchars

theorem map_classAndValue_eq_iff {ts us : List Token} :
    ts.map (fun t => t.symbol.classAndValue) = us.map (fun t => t.symbol.classAndValue) ↔
      ts.map Token.symbol = us.map Token.symbol := by
  have hinjective : Function.Injective Symbol.classAndValue :=
    fun _ _ h => Symbol.classAndValue_inj.1 h
  rw [← List.map_inj_right (f := Symbol.classAndValue) hinjective, List.map_map, List.map_map]
  rfl

/-! ## Expressions that differ in dialects only -/

/-- Two expressions that nothing but their dialects tells apart. -/
structure Expression.Alike (p q : Expression) : Prop where
  root : p.root.same q.root = true
  names : p.names = q.names
  isSingle : p.isSingle = q.isSingle
  evaluate : ∀ a, p.root.evaluate a = q.root.evaluate a

theorem Expression.alike_marked (d : Dialect) (q : Expression) :
    Alike ⟨q.root.marked d, d⟩ q where
  root := Formula.same_marked d q.root
  names := Formula.names_marked d q.root
  isSingle := Formula.isVariable_marked d q.root
  evaluate := Formula.evaluate_marked d q.root

/-- Tokens with the same symbols form alike expressions, or are rejected with errors of one kind. -/
theorem alike_or_kind_eq {ts us : List Token} (d e : Dialect)
    (h : ts.map Token.symbol = us.map Token.symbol) :
    (∃ p q, Expression.ofTokens d ts = .ok p ∧ Expression.ofTokens e us = .ok q ∧ p.Alike q) ∨
      ∃ e₁ e₂, Expression.ofTokens d ts = .error e₁ ∧ Expression.ofTokens e us = .error e₂ ∧
        e₁.kind = e₂.kind := by
  have hread : ReadAlike (Expression.ofTokens d ts) (Expression.ofTokens e us) :=
    readAlike_ofTokens h
  -- one of the two is read exactly if the other one is
  cases hus : Expression.ofTokens e us with
  | ok q =>
    have hts : Expression.ofTokens d ts = .ok ⟨q.root.marked d, d⟩ :=
      ofTokens_of_symbols_eq h hus
    exact .inl ⟨_, q, hts, rfl, q.alike_marked d⟩
  | error e₂ =>
    rw [hus] at hread
    cases hts : Expression.ofTokens d ts with
    | ok p =>
      rw [hts] at hread
      exact hread.elim
    | error e₁ =>
      rw [hts] at hread
      exact .inr ⟨e₁, e₂, rfl, rfl, hread⟩

/-- The canonical forms of two texts that can be cut into tokens agree exactly if their tokens agree
in class and value. Then both texts are read, as expressions that nothing but their dialects tells
apart, or both are rejected with errors of one kind. -/
theorem canonical_form_determines_expression {x y : String} {ts us : List Token} {d e : Dialect}
    (hx : tokenize x = .ok (ts, d)) (hy : tokenize y = .ok (us, e)) :
    ∃ cx cy, normalize x = .ok (cx, d) ∧ normalize y = .ok (cy, e) ∧
      (cx = cy ↔ ts.map (fun t => t.symbol.classAndValue) =
        us.map (fun t => t.symbol.classAndValue)) ∧
      (cx = cy →
        (∃ p q, Expression.parse x = .ok p ∧ Expression.parse y = .ok q ∧ p.Alike q) ∨
          ∃ e₁ e₂, Expression.parse x = .error e₁ ∧ Expression.parse y = .error e₂ ∧
            e₁.kind = e₂.kind) := by
  have hsymbols := canonicalText_eq_iff hx hy
  refine ⟨_, _, normalize_of_tokenize hx, normalize_of_tokenize hy, ?_, fun h => ?_⟩
  · rw [hsymbols, map_classAndValue_eq_iff]
  · rw [parse_of_tokenize hx, parse_of_tokenize hy]
    exact alike_or_kind_eq d e (hsymbols.1 h)

/-- A negated group and a letter that begins several spellings, written in words and in symbols. -/
theorem canonical_form_determines_expression_mixed :
    let x := "NOT(a nand b) or n"
    let y := "~ ( a|b )v n"
    let ts : List Token := [⟨.operator ⟨"NOT", .not, .pseudo⟩, 0⟩, ⟨.lparen, 3⟩, ⟨.letter 'a', 4⟩,
      ⟨.operator ⟨"nand", .binary .nand, .pseudo⟩, 6⟩, ⟨.letter 'b', 11⟩, ⟨.rparen, 12⟩,
      ⟨.operator ⟨"or", .binary .or, .pseudo⟩, 14⟩, ⟨.letter 'n', 17⟩]
    let us : List Token := [⟨.operator ⟨"~", .not, .logic⟩, 0⟩, ⟨.lparen, 2⟩, ⟨.letter 'a', 4⟩,
      ⟨.operator ⟨"|", .binary .nand, .logic⟩, 5⟩, ⟨.letter 'b', 6⟩, ⟨.rparen, 8⟩,
      ⟨.operator ⟨"v", .binary .or, .logic⟩, 9⟩, ⟨.letter 'n', 11⟩]
    tokenize x = .ok (ts, .pseudo) ∧ tokenize y = .ok (us, .logic) ∧
    ∃ c, normalize x = .ok (c, .pseudo) ∧ normalize y = .ok (c, .logic) ∧
      ((∃ p q, Expression.parse x = .ok p ∧ Expression.parse y = .ok q ∧ p.Alike q) ∨
        ∃ e₁ e₂, Expression.parse x = .error e₁ ∧ Expression.parse y = .error e₂ ∧
          e₁.kind = e₂.kind) := by
  intro x y ts us
  have hscanx : Scan.ofString x = ⟨ts, none⟩ := by decide +kernel
  have hscany : Scan.ofString y = ⟨us, none⟩ := by decide +kernel
  have hx : tokenize x = .ok (ts, .pseudo) := by
    simp only [tokenize, hscanx]
    rfl
  have hy : tokenize y = .ok (us, .logic) := by
    simp only [tokenize, hscany]
    rfl
  rcases canonical_form_determines_expression hx hy with ⟨cx, cy, hcx, hcy, hiff, halike⟩
  obtain rfl : cx = cy := hiff.2 (by decide)
  exact ⟨hx, hy, cx, hcx, hcy, halike rfl⟩

end PropCalc
