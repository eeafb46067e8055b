import PropCalc.Proofs.Lexing
import PropCalc.Reader
/-!
# Readers that are used again

A reader that serves several texts answers each of them as if it were the first:

* `TokenReader.read_eq` and `ExpressionReader.fst_read` — one text: the answer does not depend on the
  reader, and what becomes of its dialect;
* `getElem?_readAll` — many texts: each is read by what its predecessors made of the reader;
* `reused_readers_answer_afresh` — so all that is ever carried over is a dialect, and which one.
-/

namespace PropCalc

/-! ## One text -/

namespace Token

theorem firstSpelling?_append (ts us : List Token) :
    firstSpelling? (ts ++ us) = (firstSpelling? ts).or (firstSpelling? us) :=
  List.findSome?_append

/-- The dialect of tokens is that of their first part, unless there is no operator in it. -/
theorem dialect?_append (ts us : List Token) :
    dialect? (ts ++ us) = (dialect? ts).or (dialect? us) := by
  simp only [dialect?, firstSpelling?_append]
  cases firstSpelling? ts <;> rfl

end Token

namespace TokenReader

/-- Only a reader without dialect takes one from an item. -/
theorem dialect?_note (r : TokenReader) (l : Lexeme) :
    (r.note l).dialect? = r.dialect?.or (l.spelling?.map (·.dialect)) := by
  rcases r with ⟨_ | d⟩
  · cases hspelling : l.spelling? <;> simp [note, hspelling]
  · rfl

theorem readFrom_of_startOf?_eq_none (r : TokenReader) {c : Char} {cs : List Char}
    (hblank : isBlank c = false) (h : Lexeme.startOf? (c :: cs) = none) (offset : Nat) :
    r.readFrom offset (c :: cs) = (⟨[], some ⟨c, offset⟩⟩, r) := by
  rw [readFrom, if_neg (by simp [hblank])]
  split
  · rfl
  · next l hsome =>
    rw [h] at hsome
    cases hsome

theorem readFrom_of_startOf? (r : TokenReader) {c : Char} {cs : List Char} {l : Lexeme}
    (h : Lexeme.startOf? (c :: cs) = some l) (offset : Nat) :
    r.readFrom offset (c :: cs) =
      let p := (r.note l).readFrom (offset + l.chars.length) ((c :: cs).drop l.chars.length)
      (⟨⟨l, offset⟩ :: p.1.tokens, p.1.illegal?⟩, p.2) := by
  rw [readFrom, if_neg (by simp [Lexeme.isBlank_of_startOf? h])]
  split
  · next hnone =>
    rw [h] at hnone
    cases hnone
  · next l' hsome =>
    rw [h] at hsome
    cases hsome
    rfl

/-- Reading on finds the items that a scan finds, whatever was read before, and ends with the dialect
of the reader or else of the first operator among these items. -/
theorem readFrom_eq (r : TokenReader) (offset : Nat) (cs : List Char) :
    r.readFrom offset cs =
      (Scan.ofChars offset cs,
        ⟨r.dialect?.or (Token.dialect? (Scan.ofChars offset cs).tokens)⟩) := by
  -- on the scan; the reader varies, as it changes from item to item
  induction offset, cs using Scan.ofChars.induct generalizing r with
  | case1 offset =>
    rw [readFrom, Scan.ofChars]
    exact Prod.ext rfl (congrArg mk Option.or_none.symm)
  | case2 offset c cs hblank ih =>
    rw [readFrom, if_pos hblank, Scan.ofChars, if_pos hblank]
    exact ih r
  | case3 offset c cs hblank hnone =>
    have hblank : isBlank c = false := by simpa using hblank
    rw [readFrom_of_startOf?_eq_none r hblank hnone, Scan.ofChars_of_startOf?_eq_none hblank hnone]
    exact Prod.ext rfl (congrArg mk Option.or_none.symm)
  | case4 offset c cs hblank l hfound ih =>
    -- the item is the first of the tokens, and the reader that goes on has noted it
    rw [readFrom_of_startOf? r hfound, Scan.ofChars_of_startOf? hfound, ih (r.note l)]
    simp only [dialect?_note, Option.or_assoc]
    rw [← List.singleton_append, Token.dialect?_append]
    cases l <;> rfl

/-- A text is read as by a fresh reader; the dialect stays, or is that of the first operator. -/
theorem read_eq (r : TokenReader) (text : String) :
    r.read text = (Scan.ofString text,
      ⟨r.dialect?.or (Token.dialect? (Scan.ofString text).tokens)⟩) :=
  r.readFrom_eq 0 text.toList

end TokenReader

/-- The dialect of a text, if it is cut into tokens to its end. -/
def tokenizedDialect? (text : String) : Option Dialect :=
  match tokenize text with
  | .ok (_, d) => some d
  | .error _ => none

namespace ExpressionReader

/-- A text is read as an expression or rejected whatever was read before. -/
theorem fst_read (r : ExpressionReader) (text : String) :
    (r.read text).1 = Expression.parse text := by
  unfold read Expression.parse
  cases tokenize text <;> rfl

/-- A text that is cut into tokens leaves its dialect, any other leaves the reader as it is. -/
theorem dialect_read (r : ExpressionReader) (text : String) :
    (r.read text).2.dialect = (tokenizedDialect? text).getD r.dialect := by
  unfold read tokenizedDialect?
  cases tokenize text <;> rfl

end ExpressionReader

/-! ## Several texts -/

/-- The reader behind texts that were read one after the other. -/
def readerAfter {R A : Type} (read : R → String → A × R) (r : R) (texts : List String) : R :=
  texts.foldl (fun r text => (read r text).2) r

/-- Each text is read by what the texts before it made of the reader. -/
theorem getElem?_readAll {R A : Type} (read : R → String → A × R) (r : R) (texts : List String)
    (k : Nat) :
    (readAll read r texts)[k]? = texts[k]?.map fun text =>
      ((read (readerAfter read r (texts.take k)) text).1,
        readerAfter read r (texts.take (k + 1))) := by
  induction texts generalizing r k with
  | nil => rfl
  | cons text texts ih =>
    cases k with
    | zero => rfl
    | succ k => exact ih (read r text).2 k

/-- The dialect of the last text that is cut into tokens to its end; logic if there is none. -/
def lastDialect (texts : List String) : Dialect :=
  (texts.filterMap tokenizedDialect?).getLastD .logic

/-- The dialect of the first operator among all tokens of the texts, also of those that stand before
an illegal character. -/
def firstDialect? (texts : List String) : Option Dialect :=
  Token.dialect? (texts.flatMap fun text => (Scan.ofString text).tokens)

theorem firstDialect?_append (texts more : List String) :
    firstDialect? (texts ++ more) = (firstDialect? texts).or (firstDialect? more) := by
  rw [firstDialect?, List.flatMap_append, Token.dialect?_append]
  rfl

/-- A reader of tokens keeps its dialect, or has that of the first operator in all texts. -/
theorem TokenReader.readerAfter_eq (r : TokenReader) (texts : List String) :
    readerAfter read r texts = ⟨r.dialect?.or (firstDialect? texts)⟩ := by
  induction texts generalizing r with
  | nil => exact congrArg mk Option.or_none.symm
  | cons text texts ih =>
    show readerAfter read (r.read text).2 texts = _
    rw [ih, read_eq, Option.or_assoc, ← List.singleton_append, firstDialect?_append]
    simp [firstDialect?]

/-- A reader of expressions has the dialect of the last text that it could cut into tokens. -/
theorem ExpressionReader.readerAfter_eq (r : ExpressionReader) (texts : List String) :
    readerAfter read r texts = ⟨(texts.filterMap tokenizedDialect?).getLastD r.dialect⟩ := by
  induction texts generalizing r with
  | nil => rfl
  | cons text texts ih =>
    show readerAfter read (r.read text).2 texts = _
    rw [ih, dialect_read, List.filterMap_cons]
    cases tokenizedDialect? text with
    -- a text that is not cut into tokens does not count
    | none => rfl
    | some d => rw [Option.getD_some, List.getLastD_cons]

/-- Readers that are used again answer every text afresh, and carry over nothing but a dialect.
A reader of expressions has the dialect of the last text so far that was cut into tokens. A reader of
tokens finds the same tokens and the same illegal character, stops at the same place, and has the
dialect of the first operator so far; later texts matter to it only as long as there was none. -/
theorem reused_readers_answer_afresh (texts : List String) (k : Nat) :
    (readAll ExpressionReader.read .start texts)[k]? =
      texts[k]?.map (fun text => ((ExpressionReader.start.read text).1,
        ⟨lastDialect (texts.take (k + 1))⟩)) ∧
    ((readAll TokenReader.read .start texts)[k]? =
      texts[k]?.map (fun text => ((TokenReader.start.read text).1,
        ⟨firstDialect? (texts.take (k + 1))⟩)) ∧
     (texts.zipWith (fun text answer => answer.1.stop text)
        (readAll TokenReader.read .start texts))[k]? =
      texts[k]?.map fun text => (TokenReader.start.read text).1.stop text) ∧
    ∀ j, firstDialect? (texts.take (k + j)) =
      (firstDialect? (texts.take k)).or (firstDialect? ((texts.drop k).take j)) := by
  have htokens : (readAll TokenReader.read .start texts)[k]? =
      texts[k]?.map (fun text => ((TokenReader.start.read text).1,
        ⟨firstDialect? (texts.take (k + 1))⟩)) := by
    rw [getElem?_readAll]
    congr 1
    funext text
    simp only [TokenReader.read_eq, TokenReader.readerAfter_eq]
    rfl
  refine ⟨?_, ⟨htokens, ?_⟩, fun j => ?_⟩
  · -- the reader that is left by the texts before matters to its dialect only
    rw [getElem?_readAll]
    congr 1
    funext text
    simp only [ExpressionReader.fst_read, ExpressionReader.readerAfter_eq]
    rfl
  · -- where reading stops is told by the scan and the text, and both are those of a fresh reader
    rw [List.getElem?_zipWith, htokens]
    cases texts[k]? <;> rfl
  · rw [List.take_add, firstDialect?_append]

end PropCalc
