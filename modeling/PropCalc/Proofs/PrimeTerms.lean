import PropCalc.Proofs.CanonicalForm
import PropCalc.Proofs.CubeInclusion
/-!
# Prime terms

What a simplified expression looks like: its terms are the primes of the function that were chosen
to cover it.

* `IsPrime.exists_row_outside` — without one of its literals a prime lies in the function no longer,
  and `IsPrime.exists_valuation` says that it lies in no other prime;
* `IsSimplifiedTo.exists_value_false` and `IsSimplifiedTo.pairwise_products` — the same of the terms
  of a minimal form, told by valuations;
* `simplified_terms_are_prime` — and of the terms that are read from a simplified text.
-/

namespace PropCalc

namespace Pattern

variable {p q : Pattern} {n : Nat} {S : RowSet}

/-! ## Literals -/

/-- The literals of a pattern name some of the names, in their order. -/
theorem sublist_literals (names : List String) (p : Pattern) :
    ((p.literals names).map (·.1)).Sublist names := by
  induction names generalizing p with
  | nil => simp [literals]
  | cons x names ih =>
    cases p with
    | nil => simp [literals]
    | cons c p =>
      -- a position that asks for a value adds its name, any other adds none
      have hrest := ih p
      cases c with
      | one => exact hrest.cons_cons x
      | zero => exact hrest.cons_cons x
      | dontCare => exact hrest.cons x
      | mark _ => exact hrest.cons x

/-- The literal for a name with its position, if that asks for a truth value. -/
def literalOf? : String × Cell → Option (String × Bool)
  | (x, .one) => some (x, false)
  | (x, .zero) => some (x, true)
  | (_, .dontCare) | (_, .mark _) => none

theorem literals_map (l : List (String × Cell)) :
    literals (l.map (·.1)) (l.map (·.2)) = l.filterMap literalOf? := by
  rw [literals, List.zip_map', List.map_id']
  congr 1
  funext e
  rcases e with ⟨x, c⟩
  cases c <;> rfl

/-- A literal stands at a closed position, and without it the literals are those of the pattern that
is open there. -/
theorem exists_open_of_literals {names : List String} {u w : List (String × Bool)}
    {l : String × Bool} (hlen : p.length = names.length) (h : p.literals names = u ++ l :: w) :
    ∃ pu c pw, p = pu ++ c :: pw ∧ c ≠ .dontCare ∧
      literals names (pu ++ .dontCare :: pw) = u ++ w := by
  obtain ⟨cells, rfl, rfl⟩ : ∃ cells : List (String × Cell),
      names = cells.map (·.1) ∧ p = cells.map (·.2) :=
    ⟨names.zip p, (List.map_fst_zip (Nat.le_of_eq hlen.symm)).symm,
      (List.map_snd_zip (Nat.le_of_eq hlen)).symm⟩
  rw [literals_map, List.filterMap_eq_append_iff] at h
  -- positions that give the literals in front, and some that give none
  rcases h with ⟨before, rest, rfl, hu, hrest⟩
  rw [List.filterMap_eq_cons_iff] at hrest
  rcases hrest with ⟨silent, ⟨x, c⟩, behind, rfl, hnone, hl, hw⟩
  refine ⟨(before ++ silent).map (·.2), c, behind.map (·.2), by simp, ?_, ?_⟩
  · rintro rfl
    cases hl
  · have hopen := literals_map ((before ++ silent) ++ (x, Cell.dontCare) :: behind)
    rw [List.filterMap_append, List.filterMap_append, hu, List.filterMap_eq_nil_iff.2 hnone,
      List.append_nil, List.filterMap_cons_none rfl, hw] at hopen
    simpa using hopen

/-- In a row of the table the literals of a pattern are true together when the pattern covers it. -/
theorem all_literals_rowValuation {names : List String} (hnodup : names.Nodup)
    (hlen : p.length = names.length) (hp : p.IsProper) {row : Int} (hrow : IsRow names.length row) :
    ((p.literals names).all fun l => rowValuation names row l.1 ^^ l.2) = true ↔ row ∈ p.rows := by
  rw [all_literals hlen hp, map_rowValuation hnodup, mem_rows, hlen, and_iff_right hrow]

/-- Without one of its literals a prime also covers a row outside the set. -/
theorem IsPrime.exists_row_outside {names : List String} {u w : List (String × Bool)}
    {l : String × Bool} (hnodup : names.Nodup) (hp : p.IsPrime names.length S)
    (h : p.literals names = u ++ l :: w) :
    ∃ row, IsRow names.length row ∧ row ∉ S ∧
      ((u ++ w).all fun l => rowValuation names row l.1 ^^ l.2) = true := by
  -- dropping the literal opens its position, and a prime cannot be opened inside the set
  rcases exists_open_of_literals hp.length_eq h with ⟨pu, c, pw, heq, hc, hopen⟩
  rcases ((isPrime_iff hp.length_eq hp.proper).1 hp).2 pu c pw heq hc with ⟨row, hrow, hout⟩
  have hlen := hp.length_eq
  have hproper := hp.proper
  rw [heq] at hlen hproper
  have hopened : IsProper (pu ++ .dontCare :: pw) := hproper.replace (by decide)
  have hlen' : List.length (pu ++ Cell.dontCare :: pw) = names.length := by simpa using hlen
  have hin : IsRow names.length row := hlen' ▸ (mem_rows.1 hrow).1
  refine ⟨row, hin, hout, ?_⟩
  rw [← hopen]
  exact (all_literals_rowValuation hnodup hlen' hopened hin).2 hrow

/-- Of two primes each covers a row that the other does not. -/
theorem IsPrime.exists_mem_rows (hp : p.IsPrime n S) (hq : q.IsPrime n S) (hne : p ≠ q) :
    ∃ row ∈ p.rows, row ∉ q.rows := by
  refine Classical.byContradiction fun hnone => hne (hp.eq_of_rows_subset hq.toImplies ?_)
  intro row hrow
  refine Classical.byContradiction fun hout => hnone ⟨row, hrow, hout⟩

/-- Of two primes each can have all its literals true where the other does not. -/
theorem IsPrime.exists_valuation {names : List String} (hnodup : names.Nodup)
    (hp : p.IsPrime names.length S) (hq : q.IsPrime names.length S) (hne : p ≠ q) :
    ∃ σ : String → Bool, ((p.literals names).all fun l => σ l.1 ^^ l.2) = true ∧
      ((q.literals names).all fun l => σ l.1 ^^ l.2) = false := by
  rcases hp.exists_mem_rows hq hne with ⟨row, hrow, hout⟩
  have hin : IsRow names.length row := hp.length_eq ▸ (mem_rows.1 hrow).1
  refine ⟨rowValuation names row, ?_, eq_false_of_ne_true fun htrue => hout ?_⟩
  · exact (all_literals_rowValuation hnodup hp.length_eq hp.proper hin).2 hrow
  · exact (all_literals_rowValuation hnodup hq.length_eq hq.proper hin).1 htrue

end Pattern

/-! ## Terms of a minimal form -/

section

variable {names : List String} {f : Formula} {sum : Canonical.Sum} {p : Canonical.Product}

/-- The products are those of the primes in the cover. -/
theorem IsMinimalSum.exists_prime {S : RowSet} (hS : ∀ row ∈ S, IsRow names.length row)
    (hsum : IsMinimalSum names S sum) (hp : p ∈ sum.products) :
    ∃ q : Pattern, q.IsPrime names.length S ∧ p.literals = q.literals names := by
  rcases exists_term_of_minimalSum hsum hp with ⟨t, ht, heq⟩
  exact ⟨t.pattern, (isPrime_of_mem_minimalCover hS ht).2, heq.symm⟩

/-- Every term implies the formula, -/
theorem IsSimplifiedTo.value_of_product (h : IsSimplifiedTo f names sum) (hp : p ∈ sum.products)
    {σ : String → Bool} (hσ : p.formula.value σ = true) : f.value σ = true := by
  rw [← h.value_eq, Canonical.Sum.value_formula, List.any_eq_true]
  exact ⟨p, hp, by rwa [← Canonical.Product.value_formula]⟩

/-- but would not without one of its literals, -/
theorem IsSimplifiedTo.exists_value_false (h : IsSimplifiedTo f names sum) (hnodup : names.Nodup)
    (hp : p ∈ sum.products) {u w : List (String × Bool)} {l : String × Bool}
    (heq : p.literals = u ++ l :: w) :
    ∃ σ : String → Bool, ((u ++ w).all fun l => σ l.1 ^^ l.2) = true ∧ f.value σ = false := by
  rcases h.minimal.exists_prime (isRow_of_mem_trueRowSet f names) hp with ⟨q, hq, hliterals⟩
  rcases hq.exists_row_outside hnodup (hliterals.symm.trans heq) with ⟨row, hrow, hout, hall⟩
  refine ⟨rowValuation names row, hall, eq_false_of_ne_true fun htrue => hout ?_⟩
  exact mem_rowsWhere.2 ⟨hrow, htrue⟩

/-- and none of them implies another one. -/
theorem IsSimplifiedTo.pairwise_products (h : IsSimplifiedTo f names sum) (hnodup : names.Nodup) :
    sum.products.Pairwise fun p q =>
      (∃ σ : String → Bool, p.formula.value σ = true ∧ q.formula.value σ = false) ∧
        ∃ σ : String → Bool, q.formula.value σ = true ∧ p.formula.value σ = false := by
  have hS := isRow_of_mem_trueRowSet f names
  -- different terms of the cover have different patterns, both of them prime
  have hapart : ∀ s ∈ minimalCover names.length (f.trueRowSet names),
      ∀ t ∈ minimalCover names.length (f.trueRowSet names), s ≠ t →
        ∃ σ : String → Bool, ((s.pattern.literals names).all fun l => σ l.1 ^^ l.2) = true ∧
          ((t.pattern.literals names).all fun l => σ l.1 ^^ l.2) = false := by
    intro s hs t ht hne
    rcases isPrime_of_mem_minimalCover hS hs with ⟨hseq, hsprime⟩
    rcases isPrime_of_mem_minimalCover hS ht with ⟨hteq, htprime⟩
    refine hsprime.exists_valuation hnodup htprime fun heq => ?_
    rw [hseq, hteq, heq] at hne
    exact hne rfl
  have hcover : ((minimalCover names.length (f.trueRowSet names)).map
      (·.pattern.literals names)).Pairwise fun ls ls' =>
        (∃ σ : String → Bool, (ls.all fun l => σ l.1 ^^ l.2) = true ∧
            (ls'.all fun l => σ l.1 ^^ l.2) = false) ∧
          ∃ σ : String → Bool, (ls'.all fun l => σ l.1 ^^ l.2) = true ∧
            (ls.all fun l => σ l.1 ^^ l.2) = false := by
    rw [List.pairwise_map]
    exact (Cover.nodup_chosen _ _).imp_of_mem fun hs ht hne =>
      ⟨hapart _ hs _ ht hne, hapart _ ht _ hs hne.symm⟩
  rw [← h.minimal, List.pairwise_map] at hcover
  simpa only [Canonical.Product.value_formula] using hcover

theorem IsSimplifiedTo.mem_of_product (h : IsSimplifiedTo f names sum) (hp : p ∈ sum.products) :
    ∀ x ∈ p.formula.leaves, x ∈ names := by
  intro x hx
  rw [Canonical.Product.leaves_formula, List.mem_map] at hx
  rcases hx with ⟨l, hl, rfl⟩
  exact name_mem_of_minimalSum h.minimal hp hl

/-- The terms list different names, in the order of all names. -/
theorem IsSimplifiedTo.sublist_names (h : IsSimplifiedTo f names sum) (hp : p ∈ sum.products) :
    (p.literals.map (·.1)).Sublist names := by
  rcases h.minimal.exists_prime (isRow_of_mem_trueRowSet f names) hp with ⟨q, -, hliterals⟩
  rw [hliterals]
  exact q.sublist_literals names

end

/-! ## Assignments -/

/-- All literals of a term are true: every name has the value that its literal asks for. -/
def Assignment.Satisfies (a : Assignment) (term : List (String × Bool)) : Prop :=
  ∀ l ∈ term, a.get? l.1 = some (!l.2)

theorem Assignment.satisfies_onNames {names : List String} {σ : String → Bool}
    {term : List (String × Bool)} (hnames : ∀ l ∈ term, l.1 ∈ names)
    (h : (term.all fun l => σ l.1 ^^ l.2) = true) : (onNames names σ).Satisfies term := by
  intro l hl
  have hvalue := List.all_eq_true.1 h l hl
  rw [get?_onNames σ (hnames l hl), Option.some.injEq]
  cases hn : l.2 <;> simpa [hn] using hvalue

/-! ## Simplified texts -/

/-- What is read from a simplified text is the formula of a minimal form, unless it is constant. -/
theorem exists_isSimplifiedTo_of_parse {text : String} {e : Expression}
    (h : Expression.parse text = .ok e) (dialect? : Option Dialect) :
    ∃ simple, (Subject.expression e).simplify none dialect? = .ok simple ∧
      (simple ≠ Subject.alwaysTrueText → simple ≠ Subject.alwaysFalseText →
        ∃ (e' : Expression) (sum : Canonical.Sum), IsSimplifiedTo e.root e.names sum ∧
          Expression.parse simple = .ok e' ∧ e'.root = sum.formula.marked e'.dialect) := by
  have hlettered : ∀ x ∈ e.names, IsVariableName x :=
    fun x hx => isLettered_of_parse h x (e.mem_names.1 hx)
  rcases Subject.simplify_cases dialect? e.orElse_names e.root.nodup_names hlettered
    e.names_of_leaves with
    ⟨-, htext⟩ | ⟨-, htext⟩ | ⟨-, -, sum, hsum, htext⟩
  · exact ⟨_, htext, fun _ hne => absurd rfl hne⟩
  · exact ⟨_, htext, fun hne => absurd rfl hne⟩
  · have hparse := parse_text ((Subject.expression e).outputDialect dialect?)
      (Canonical.Sum.isLettered_formula hsum.lettered)
    exact ⟨_, htext, fun _ _ => ⟨_, sum, hsum, hparse, rfl⟩⟩

/-- A simplified text that is no constant is read as a disjunction of terms, which are conjunctions
of literals, both joined from the left. Every term lists different variables in the order of the
expression, and it implies the expression, but no longer does without any one of its literals. No
term implies another one. -/
theorem simplified_terms_are_prime {text : String} {e : Expression}
    (h : Expression.parse text = .ok e) (dialect? : Option Dialect) :
    ∃ simple, (Subject.expression e).simplify none dialect? = .ok simple ∧
      (simple ≠ Subject.alwaysTrueText → simple ≠ Subject.alwaysFalseText →
        ∃ (e' : Expression) (sum : Canonical.Sum), Expression.parse simple = .ok e' ∧
          e'.root = sum.formula.marked e'.dialect ∧
          (∀ p ∈ sum.products,
            (p.literals.map (·.1)).Nodup ∧ (p.literals.map (·.1)).Sublist e.names ∧
            (∀ a : Assignment, a.names = e.names → p.formula.evaluate a = .ok true →
              e.root.evaluate a = .ok true) ∧
            ∀ u l w, p.literals = u ++ l :: w → ∃ a : Assignment, a.names = e.names ∧
              a.Satisfies (u ++ w) ∧ e.root.evaluate a = .ok false) ∧
          sum.products.Pairwise fun p q =>
            (∃ a : Assignment, a.names = e.names ∧ p.formula.evaluate a = .ok true ∧
              q.formula.evaluate a = .ok false) ∧
            ∃ a : Assignment, a.names = e.names ∧ q.formula.evaluate a = .ok true ∧
              p.formula.evaluate a = .ok false) := by
  rcases exists_isSimplifiedTo_of_parse h dialect? with ⟨simple, hsimple, hread⟩
  refine ⟨simple, hsimple, fun hneTrue hneFalse => ?_⟩
  rcases hread hneTrue hneFalse with ⟨e', sum, hsum, hparse, hroot⟩
  have hnodup : e.names.Nodup := e.root.nodup_names
  have hterm : ∀ p ∈ sum.products, ∀ σ : String → Bool,
      p.formula.evaluate (.onNames e.names σ) = .ok (p.formula.value σ) :=
    fun p hp σ => p.formula.evaluate_onNames σ (hsum.mem_of_product hp)
  refine ⟨e', sum, hparse, hroot, fun p hp => ⟨?_, hsum.sublist_names hp, ?_, ?_⟩, ?_⟩
  · exact (hsum.sublist_names hp).nodup hnodup
  · intro a ha htrue
    rw [Formula.evaluate_of_names (ha ▸ hsum.mem_of_product hp), Except.ok.injEq] at htrue
    rw [Formula.evaluate_of_names (ha ▸ e.names_of_leaves)]
    exact congrArg Except.ok (hsum.value_of_product hp htrue)
  · intro u l w heq
    rcases hsum.exists_value_false hnodup hp heq with ⟨σ, hall, hfalse⟩
    refine ⟨.onNames e.names σ, Assignment.names_onNames e.names σ, ?_, ?_⟩
    · -- the literals that are left have names of the expression
      refine Assignment.satisfies_onNames (fun m hm => ?_) hall
      have hmem : m ∈ p.literals := by
        rw [heq]
        exact List.mem_append.2 ((List.mem_append.1 hm).imp id (List.mem_cons_of_mem l))
      exact name_mem_of_minimalSum hsum.minimal hp hmem
    · rw [e.root.evaluate_onNames σ e.names_of_leaves]
      exact congrArg Except.ok hfalse
  · refine (hsum.pairwise_products hnodup).imp_of_mem fun {p q} hp hq hapart => ?_
    -- both valuations, as assignments of the names of the expression
    rcases hapart with ⟨⟨σ, hpσ, hqσ⟩, ⟨τ, hqτ, hpτ⟩⟩
    refine ⟨⟨.onNames e.names σ, Assignment.names_onNames e.names σ, ?_, ?_⟩,
      ⟨.onNames e.names τ, Assignment.names_onNames e.names τ, ?_, ?_⟩⟩
    · rw [hterm p hp, hpσ]
    · rw [hterm q hq, hqσ]
    · rw [hterm q hq, hqτ]
    · rw [hterm p hp, hpτ]

/-- A choice between two variables, with a term that follows from it and is left out. -/
theorem simplified_terms_are_prime_choice :
    let e : Expression := ⟨.binary (.binary (.binary (.var "a" false) .and (.var "b" false) false
      .logic) .or (.binary (.var "a" true) .and (.var "c" false) false .logic) false .logic) .or
      (.binary (.var "b" false) .and (.var "c" false) false .logic) false .logic, .logic⟩
    let e' : Expression := ⟨.binary (.binary (.var "a" false) .and (.var "b" false) false .pseudo)
      .or (.binary (.var "a" true) .and (.var "c" false) false .pseudo) false .pseudo, .pseudo⟩
    Expression.parse "(a ^ b) v (~a ^ c) v (b ^ c)" = .ok e ∧
    (Subject.expression e).simplify none (some .pseudo) = .ok "(a and b) or (not a and c)" ∧
    Expression.parse "(a and b) or (not a and c)" = .ok e' ∧
    ∃ sum : Canonical.Sum, e'.root = sum.formula.marked .pseudo ∧
      (∀ p ∈ sum.products,
        (p.literals.map (·.1)).Nodup ∧ (p.literals.map (·.1)).Sublist e.names ∧
        (∀ a : Assignment, a.names = e.names → p.formula.evaluate a = .ok true →
          e.root.evaluate a = .ok true) ∧
        ∀ u l w, p.literals = u ++ l :: w → ∃ a : Assignment, a.names = e.names ∧
          a.Satisfies (u ++ w) ∧ e.root.evaluate a = .ok false) ∧
      sum.products.Pairwise fun p q =>
        (∃ a : Assignment, a.names = e.names ∧ p.formula.evaluate a = .ok true ∧
          q.formula.evaluate a = .ok false) ∧
        ∃ a : Assignment, a.names = e.names ∧ q.formula.evaluate a = .ok true ∧
          p.formula.evaluate a = .ok false := by
  intro e e'
  have h : Expression.parse "(a ^ b) v (~a ^ c) v (b ^ c)" = .ok e :=
    parse_text (f := e.root) .logic (by decide)
  have hsimplify : (Subject.expression e).simplify none (some .pseudo) =
      .ok "(a and b) or (not a and c)" := by decide +kernel
  have hparse : Expression.parse "(a and b) or (not a and c)" = .ok e' :=
    parse_text (f := e'.root) .pseudo (by decide)
  rcases simplified_terms_are_prime h (some .pseudo) with ⟨simple, hsimple, hterms⟩
  obtain rfl : "(a and b) or (not a and c)" = simple := Except.ok.inj (hsimplify.symm.trans hsimple)
  -- the text is neither constant, so its terms are there and can be named
  rcases hterms (by decide) (by decide) with ⟨e'', sum, hread, hroot, hprime, hapart⟩
  obtain rfl : e' = e'' := Except.ok.inj (hparse.symm.trans hread)
  exact ⟨h, hsimplify, hparse, sum, hroot, hprime, hapart⟩

end PropCalc
