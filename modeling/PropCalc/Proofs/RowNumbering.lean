import Mathlib.Data.Int.Bitwise
import Mathlib.Data.List.Nodup
import Mathlib.Data.Set.Function
import PropCalc.Proofs.Cubes
import PropCalc.Proofs.Valuation
/-!
# The numbering of rows

Assignments read a row by dividing its number and patterns by shifting it. Both come to the same
truth values, also for numbers that lie in no table.

* `Pattern.ofRow_eq_land` — the bit that a pattern shows can as well be masked out of the shifted row;
* `Pattern.getElem?_text_ofRow` — each character of a pattern says what the bit says;
* `bijOn_text_ofRow` — rows of a table and patterns without open positions are the same thing, with
  `rowOfText` as the way back;
* `Assignment.mem_enumerate`, `Assignment.nodup_enumerate` — the assignments of the names are listed,
  each once;
* `rows_numbered_alike` — tables and patterns number their rows in one way.
-/

namespace PropCalc

variable {n j : Nat} {names : List String} {x : String}

theorem getElem?_rowTruths (h : j < n) (row : Int) :
    (rowTruths n row)[j]? = some (Assignment.truthValue row (n - j - 1)) := by
  simp [rowTruths, h]

/-! ## Bits -/

theorem land_zero (m : Int) : m.land 0 = 0 := by
  cases m with
  | ofNat m => exact congrArg Int.ofNat (Nat.and_zero m)
  | negSucc m =>
    -- below zero the bits of the number are taken away from those of the mask
    refine congrArg Int.ofNat (Nat.eq_of_testBit_eq fun i => ?_)
    rw [Nat.testBit_ldiff, Nat.zero_testBit]
    rfl

/-- Masking all bits but the lowest leaves the remainder by two, of negative numbers as well. -/
theorem land_one_eq_emod (m : Int) : m.land 1 = m % 2 := by
  have hmask : m.land 1 = Int.bit m.bodd 0 := by
    have hbits := Int.land_bit m.bodd m.div2 true 0
    rw [Int.bit_decomp, Bool.and_true, land_zero] at hbits
    exact hbits
  have hparts := Int.bodd_add_div2 m
  rw [hmask, Int.bit_val]
  cases hodd : m.bodd with
  | true =>
    rw [hodd, cond_true] at hparts
    rw [cond_true]
    omega
  | false =>
    rw [hodd, cond_false] at hparts
    rw [cond_false]
    omega

/-! ## Patterns of rows -/

/-- The pattern of a row, by the lowest bits of the shifted row. -/
theorem Pattern.ofRow_eq_land (n : Nat) (row : Int) :
    Pattern.ofRow n row =
      (List.range n).map fun j => Cell.ofBool ((row >>> (n - j - 1)).land 1 == 0) := by
  simp only [Pattern.ofRow, land_one_eq_emod]

/-- The character for a truth value. -/
def digit (value : Bool) : Char := (Cell.ofBool value).char

@[simp] theorem digit_true : digit true = '1' := rfl

@[simp] theorem digit_false : digit false = '0' := rfl

theorem digit_eq_one_iff {value : Bool} : digit value = '1' ↔ value = true := by
  cases value <;> simp

theorem digit_eq_zero_iff {value : Bool} : digit value = '0' ↔ value = false := by
  cases value <;> simp

theorem Pattern.toList_text_ofRow (n : Nat) (row : Int) :
    (Pattern.ofRow n row).text.toList = (rowTruths n row).map digit := by
  rw [Pattern.text, String.toList_ofList, pattern_ofRow_eq_map, List.map_map]
  rfl

theorem Pattern.length_text_ofRow (n : Nat) (row : Int) : (Pattern.ofRow n row).text.length = n := by
  rw [← String.length_toList, Pattern.toList_text_ofRow, List.length_map, length_rowTruths]

/-- The pattern of a row shows its bits from the highest to the lowest. -/
theorem Pattern.getElem?_text_ofRow (h : j < n) (row : Int) :
    (Pattern.ofRow n row).text.toList[j]? =
      some (digit (Assignment.truthValue row (n - j - 1))) := by
  rw [Pattern.toList_text_ofRow, List.getElem?_map, getElem?_rowTruths h]
  rfl

/-- The texts of patterns that have no open position. -/
def closedTexts (n : Nat) : Set String := {s | s.length = n ∧ ∀ c ∈ s.toList, c = '1' ∨ c = '0'}

/-- The row whose pattern is written so. -/
def rowOfText (s : String) : Int := rowNumber (s.toList.map (· == '1'))

theorem rowOfText_text_ofRow {row : Int} (h : IsRow n row) :
    rowOfText (Pattern.ofRow n row).text = row := by
  have hbits : ((rowTruths n row).map digit).map (· == '1') = rowTruths n row := by
    rw [List.map_map]
    refine List.map_id'' (fun value => ?_) _
    cases value <;> rfl
  rw [rowOfText, Pattern.toList_text_ofRow, hbits, rowNumber_rowTruths h]

theorem isRow_rowOfText {s : String} (h : s ∈ closedTexts n) : IsRow n (rowOfText s) :=
  isRow_rowNumber_of_length (by rw [List.length_map, String.length_toList, h.1])

theorem text_ofRow_rowOfText {s : String} (h : s ∈ closedTexts n) :
    (Pattern.ofRow n (rowOfText s)).text = s := by
  rcases h with ⟨hlength, hdigits⟩
  have hbits : rowTruths n (rowOfText s) = s.toList.map (· == '1') :=
    rowTruths_rowNumber_of_length (by rw [List.length_map, String.length_toList, hlength])
  rw [← String.toList_inj, Pattern.toList_text_ofRow, hbits, List.map_map]
  -- every character is the one that its truth value is written with
  refine (List.map_congr_left fun c hc => ?_).trans (List.map_id s.toList)
  rcases hdigits c hc with rfl | rfl
  · rfl
  · rfl

theorem text_ofRow_mem_closedTexts (n : Nat) (row : Int) :
    (Pattern.ofRow n row).text ∈ closedTexts n := by
  refine ⟨Pattern.length_text_ofRow n row, fun c hc => ?_⟩
  rw [Pattern.toList_text_ofRow] at hc
  rcases List.mem_map.1 hc with ⟨value, -, rfl⟩
  cases value
  · exact .inr rfl
  · exact .inl rfl

/-- The rows of a table are its patterns without open positions. -/
theorem bijOn_text_ofRow (n : Nat) :
    Set.BijOn (fun row => (Pattern.ofRow n row).text) {row | IsRow n row} (closedTexts n) := by
  -- either way followed by the other leads back
  have hinv : Set.InvOn rowOfText (fun row => (Pattern.ofRow n row).text) {row | IsRow n row}
      (closedTexts n) :=
    ⟨fun _ hrow => rowOfText_text_ofRow hrow, fun _ hs => text_ofRow_rowOfText hs⟩
  exact hinv.bijOn (fun row _ => text_ofRow_mem_closedTexts n row) fun _ hs => isRow_rowOfText hs

/-! ## Assignments of rows -/

namespace Assignment

@[simp] theorem length_enumerate (names : List String) :
    (enumerate names).length = rowCount names.length := by
  simp [enumerate]

/-- Any values of the names are those of a row. -/
theorem mem_enumerate {a : Assignment} : a ∈ enumerate names ↔ a.names = names := by
  constructor
  · intro h
    rcases List.mem_map.1 h with ⟨row, -, rfl⟩
    exact names_ofRow names row
  · rintro rfl
    -- the row with these values is the one to look for
    have hlength : (a.pairs.map (·.2)).length = a.names.length := by simp [Assignment.names]
    refine List.mem_map.2 ⟨rowNumber (a.pairs.map (·.2)), ?_, ?_⟩
    · rw [List.mem_range, ← hlength]
      exact rowNumber_lt _
    · rw [ofRow_eq_ofLists, rowTruths_rowNumber_of_length hlength, ofLists, Assignment.names,
        List.zip_map']
      exact congrArg Assignment.mk (List.map_id a.pairs)

/-- Different rows give the names different values. -/
theorem nodup_enumerate (names : List String) : (enumerate names).Nodup := by
  refine List.Nodup.map_on (fun r hr s hs h => ?_) List.nodup_range
  have hrow : ∀ {r}, r ∈ List.range (rowCount names.length) → IsRow names.length (r : Int) :=
    fun hr => ⟨Int.natCast_nonneg _, by exact_mod_cast List.mem_range.1 hr⟩
  -- the values alone tell the row, even where a name is repeated
  have hvalues : ∀ r : Nat, (ofRow names r).pairs.map (·.2) = rowTruths names.length r := by
    intro r
    rw [ofRow_eq_ofLists]
    exact List.map_snd_zip (by simp)
  have htruths : rowTruths names.length r = rowTruths names.length s := by
    rw [← hvalues, ← hvalues, h]
  exact_mod_cast eq_of_rowTruths_eq (hrow hr) (hrow hs) htruths

/-- A row gives each of several different names the value of its bit. -/
theorem get?_ofRow (hnames : names.Nodup) (hx : names[j]? = some x) (row : Nat) :
    (ofRow names row).get? x = some (truthValue row (names.length - j - 1)) := by
  have hj : j < names.length := (List.getElem?_eq_some_iff.1 hx).1
  have hvalue : some (rowValuation names row x) =
      some (truthValue row (names.length - j - 1)) := by
    rw [← getElem?_rowTruths hj, ← map_rowValuation hnames, List.getElem?_map, hx]
    rfl
  rw [ofRow_eq_ofLists, ← hvalue]
  exact lookup_zip_of_mem (by simp) (List.mem_of_getElem? hx)

end Assignment

/-! ## One numbering -/

/-- Tables and patterns number their rows alike. For every number, also a negative one, the
characters of its pattern are `'1'` where the bit makes the variable true and `'0'` where it does
not. A table over different names lists every assignment of them exactly once, and the one in a row
makes true the names for which the pattern of the row has a `'1'`. So every pattern without open
positions is that of exactly one row. -/
theorem rows_numbered_alike (n : Nat) :
    (∀ row : Int, (Pattern.ofRow n row).text.length = n ∧ ∀ j < n,
      ((Pattern.ofRow n row).text.toList[j]? = some '1' ↔
        Assignment.truthValue row (n - j - 1) = true) ∧
      ((Pattern.ofRow n row).text.toList[j]? = some '0' ↔
        Assignment.truthValue row (n - j - 1) = false)) ∧
    (∀ names : List String, names.length = n → names.Nodup →
      (Assignment.enumerate names).length = rowCount n ∧ (Assignment.enumerate names).Nodup ∧
      (∀ a, a ∈ Assignment.enumerate names ↔ a.names = names) ∧
      ∀ (r : Nat) (a : Assignment), (Assignment.enumerate names)[r]? = some a →
        ∀ (j : Nat) (x : String), names[j]? = some x →
          ∃ value, a.get? x = some value ∧
            (value = true ↔ (Pattern.ofRow n r).text.toList[j]? = some '1')) ∧
    Set.BijOn (fun row => (Pattern.ofRow n row).text) {row | IsRow n row}
      {s | s.length = n ∧ ∀ c ∈ s.toList, c = '1' ∨ c = '0'} := by
  refine ⟨fun row => ⟨Pattern.length_text_ofRow n row, fun j hj => ?_⟩, ?_, bijOn_text_ofRow n⟩
  · rw [Pattern.getElem?_text_ofRow hj, Option.some.injEq, Option.some.injEq]
    exact ⟨digit_eq_one_iff, digit_eq_zero_iff⟩
  · rintro names rfl hnames
    refine ⟨Assignment.length_enumerate names, Assignment.nodup_enumerate names,
      fun a => Assignment.mem_enumerate, fun r a ha j x hx => ?_⟩
    have hr : r < rowCount names.length := by
      simpa using (List.getElem?_eq_some_iff.1 ha).1
    have hj : j < names.length := (List.getElem?_eq_some_iff.1 hx).1
    obtain rfl : Assignment.ofRow names r = a := by
      rw [Assignment.getElem?_enumerate hr] at ha
      exact Option.some.inj ha
    refine ⟨_, Assignment.get?_ofRow hnames hx r, ?_⟩
    rw [Pattern.getElem?_text_ofRow hj, Option.some.injEq, digit_eq_one_iff]

/-- A row before the first one, and the last but two of a table over names that are not in order. -/
theorem rows_numbered_alike_negative :
    let names := ["q", "p", "r"]
    names.length = 3 ∧ names.Nodup ∧ (Pattern.ofRow 3 (-3)).text.toList[1]? = some '1' ∧
      Assignment.truthValue (-3) 1 = true ∧ Assignment.truthValue (-3) 2 = false ∧
      ∃ a, (Assignment.enumerate names)[5]? = some a ∧ a.get? "p" = some true := by
  intro names
  rcases rows_numbered_alike 3 with ⟨hpattern, htable, -⟩
  have hnames : names.Nodup := by decide
  have htrue : Assignment.truthValue (-3) 1 = true := by decide
  have hfalse : Assignment.truthValue (-3) 2 = false := by decide
  have hone := ((hpattern (-3)).2 1 (by decide)).1.2 htrue
  rcases htable names rfl hnames with ⟨-, -, -, hvalues⟩
  rcases hvalues 5 _ rfl 1 "p" rfl with ⟨value, hvalue, hiff⟩
  have hp : value = true := hiff.2 (by decide)
  rw [hp] at hvalue
  exact ⟨rfl, hnames, hone, htrue, hfalse, _, rfl, hvalue⟩

end PropCalc
