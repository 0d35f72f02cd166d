/-
Every text is either read as an expression or refused with a syntax error. The leaves of the trees
that are read are checked once more when an expression is built, and this check never fails: the
numerals of a tree are finite and its names are made of letters, by the patterns of their tokens.
-/
import SumProduct.Proofs.Grammar.Bounds
import SumProduct.Proofs.Simplify.Value
import SumProduct.Proofs.Expr.RoundTrip

namespace SumProduct

/-! ## Admitted leaves -/

/-- Whether a double stands for a number of expressions as it is. -/
def Double.IsAdmitted (x : Double) : Prop := x.isFinite = true ∧ x.isNegative = false

theorem Decimal.isAdmitted_toDouble {d : Decimal} (h : d.toDouble.isFinite = true) :
    d.toDouble.IsAdmitted :=
  ⟨h, Double.isNegative_ofRank false (Double.min_infinityRank_lt _)⟩

theorem Double.ofRank_rank {x : Double} (h : x.isNegative = false) : ofRank false x.rank = x := by
  have hlt : x.bits.toNat < signBit := Nat.not_le.1 (of_decide_eq_false h)
  have hrank : x.rank = x.bits.toNat := Nat.mod_eq_of_lt hlt
  rw [ofRank, hrank, if_neg Bool.false_ne_true, Nat.zero_add, UInt64.ofNat_toNat]

/-- An admitted double is a number, and the number keeps its bits. -/
theorem Number.exists_ofDouble {x : Double} (h : x.IsAdmitted) :
    ∃ n, ofDouble x = .ok n ∧ n.toDouble = x := by
  obtain ⟨hfinite, hsign⟩ := h
  have hrank : x.rank < Double.infinityRank := of_decide_eq_true hfinite
  refine ⟨⟨x.rank, hrank⟩, ?_, Double.ofRank_rank hsign⟩
  unfold ofDouble
  rw [dif_pos hrank, if_neg (by simp [hsign])]

theorem Symbol.exists_ofName {name : String} (h : isSymbolName name = true) :
    ∃ x, ofName name = .ok x ∧ x.name = name := by
  refine ⟨⟨name, h⟩, ?_, rfl⟩
  unfold ofName
  rw [dif_pos h]

namespace Shape

/-- Whether all leaves are admitted into expressions. -/
def IsAdmitted : Shape → Prop
  | number value => value.IsAdmitted
  | symbol name => isSymbolName name = true
  | paren inner => inner.IsAdmitted
  | binary lhs _ rhs => lhs.IsAdmitted ∧ rhs.IsAdmitted

/-- Where all leaves are admitted, an expression is built. -/
theorem exists_expr {s : Shape} (h : s.IsAdmitted) : ∃ e, s.expr = .ok e := by
  induction s with
  | number value =>
    obtain ⟨n, hn, -⟩ := Number.exists_ofDouble h
    refine ⟨.number n, ?_⟩
    rw [expr, Expr.ofDouble, hn]
  | symbol name =>
    obtain ⟨x, hx, -⟩ := Symbol.exists_ofName h
    refine ⟨.symbol x, ?_⟩
    rw [expr, Expr.ofName, hx]
  | paren inner ih => exact ih h
  | binary lhs op rhs ihl ihr =>
    obtain ⟨l, hl⟩ := ihl h.1
    obtain ⟨r, hr⟩ := ihr h.2
    refine ⟨op.apply l r, ?_⟩
    rw [expr, hl, hr]

end Shape

/-- The leaves of a tree are those of its shape. -/
theorem Tree.isAdmitted_of_mem_postOrder {t node : Tree} (h : t.shape.IsAdmitted)
    (hnode : node ∈ t.postOrder) : node.shape.IsAdmitted := by
  induction t with
  | number _ _ | symbol _ _ =>
    obtain rfl := List.mem_singleton.1 hnode
    exact h
  | paren inner _ ih =>
    rcases List.mem_append.1 hnode with hnode | hnode
    · exact ih h hnode
    · obtain rfl := List.mem_singleton.1 hnode
      exact h
  | binary lhs op rhs _ ihl ihr =>
    rcases List.mem_append.1 hnode with hnode | hnode
    · rcases List.mem_append.1 hnode with hnode | hnode
      · exact ihl h.1 hnode
      · exact ihr h.2 hnode
    · obtain rfl := List.mem_singleton.1 hnode
      exact h

namespace Grammar

/-- What can be read is admitted: a finite numeral is not negative, and a name has letters only. -/
theorem Derivation.isAdmitted_shape {n : Nonterminal} {d : Derivation n} (hd : d.IsReadable) :
    d.shape.IsAdmitted := by
  induction d with
  | term t ih => exact ih hd
  | factor f ih => exact ih hd
  | sum e t ihe iht =>
    obtain ⟨he, ht⟩ := isReadable_sum.1 hd
    exact ⟨ihe he, iht ht⟩
  | product t f iht ihf =>
    obtain ⟨ht, hf⟩ := isReadable_product.1 hd
    exact ⟨iht ht, ihf hf⟩
  | integer lexeme | decimal lexeme =>
    exact Decimal.isAdmitted_toDouble (hd _ (List.mem_singleton_self _)).2
  | name lexeme => exact isSymbolName_iff_matches.2 (hd _ (List.mem_singleton_self _)).1
  | paren e ih => exact ih (isReadable_paren.1 hd)

/-- Every leaf of a tree that is read from a source is admitted. -/
theorem isAdmitted_of_parse {source : String} {t : Tree} (h : Tree.parse source = .ok t) :
    t.shape.IsAdmitted := by
  obtain ⟨d, -, hshape, hd⟩ := Derivation.exists_of_parse h
  rw [hshape]
  exact Derivation.isAdmitted_shape hd

end Grammar

namespace Expr

/-! ## All texts -/

/-- No text is refused for a value in it. -/
theorem parse_cases (source : String) :
    (∃ e, parse source = .ok e) ∨ ∃ e, parse source = .error (.syntaxError e) := by
  cases ht : Tree.parse source with
  | error e =>
    refine .inr ⟨e, ?_⟩
    rw [parse, ht]
  | ok t =>
    obtain ⟨e, he⟩ := Shape.exists_expr (Grammar.isAdmitted_of_parse ht)
    exact .inl ⟨e, parse_of_shape ht he⟩

theorem letters_of_symbol (x : Symbol) : x.name ≠ "" ∧
    ∀ c ∈ x.name.toList, 'A' ≤ c ∧ c ≤ 'Z' ∨ 'a' ≤ c ∧ c ≤ 'z' := by
  obtain ⟨hne, hletters⟩ := isSymbolName_iff_matches.1 x.valid
  constructor
  · intro hempty
    exact hne (hempty ▸ rfl)
  · intro c hc
    exact Token.isAlpha_iff_le.1 (hletters c hc)

/-- Every text is read or refused with a syntax error. Reading it never leaves its tokens nor looks
one up out of range, the numbers and names in its tree are admitted as they are by the constructors
of leaves, and every leaf of the expression is a finite number without a sign or a word of
letters. -/
theorem parse_safe (source : String) :
    (∀ c, Cursor.Reached source c →
      (∃ i, c.StandsAt source i ∧ c.LooksUp source i) ∧
      (∀ p : Phrase, (p.read c).Within (Cursor.Reached source)) ∧
      (∀ lhs least, (Grammar.chain lhs least c).Within (Cursor.Reached source)) ∧
      ∀ p rhs, (Grammar.completeRhs p rhs c).Within (Cursor.Reached source)) ∧
    (∀ t, Tree.parse source = .ok t →
      (∀ value s, .number value s ∈ t.postOrder →
        ∃ n, Number.ofDouble value = .ok n ∧ n.toDouble = value) ∧
      ∀ name s, .symbol name s ∈ t.postOrder → ∃ x, Symbol.ofName name = .ok x ∧ x.name = name) ∧
    ((∃ e, parse source = .ok e) ∨ ∃ e, parse source = .error (.syntaxError e)) ∧
    ∀ e, parse source = .ok e →
      (∀ n ∈ e.numbers, n.toDouble.isFinite = true ∧ n.toDouble.isNegative = false) ∧
      ∀ x ∈ e.symbolLeaves, x.name ≠ "" ∧
        ∀ c ∈ x.name.toList, 'A' ≤ c ∧ c ≤ 'Z' ∨ 'a' ≤ c ∧ c ≤ 'z' := by
  refine ⟨?_, ?_, parse_cases source, ?_⟩
  · intro c hc
    have hnext : ∀ d, Cursor.Reached source d → Cursor.Reached source (Grammar.next d).cursor :=
      fun _ => .next
    obtain ⟨i, hi⟩ := hc.exists_standsAt
    exact ⟨⟨i, hi, hi.looksUp⟩, fun p => Grammar.within_read hnext p hc,
      fun lhs least => Grammar.within_chain hnext lhs least hc,
      fun p rhs => Grammar.within_completeRhs hnext p rhs hc⟩
  · intro t ht
    have hleaves := Grammar.isAdmitted_of_parse ht
    constructor
    · intro value s hmem
      exact Number.exists_ofDouble (Tree.isAdmitted_of_mem_postOrder hleaves hmem)
    · intro name s hmem
      exact Symbol.exists_ofName (Tree.isAdmitted_of_mem_postOrder hleaves hmem)
  · intro e _
    constructor
    · intro n _
      exact ⟨n.isFinite_toDouble, n.isNegative_toDouble⟩
    · intro x _
      exact letters_of_symbol x

end Expr

end SumProduct
