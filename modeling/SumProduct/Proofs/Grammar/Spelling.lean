/-
Texts of derivations. A derivation whose lexemes match their patterns is spelt with one blank around
each operator and none elsewhere. Its terminals are then those of the text, so the text is read as
the tree that the derivation stands for.
-/
import SumProduct.Proofs.Token.Spacing
import SumProduct.Proofs.Number.Writing
import SumProduct.Proofs.Grammar.Acceptance

namespace SumProduct

/-! ## Shapes -/

namespace Shape

/-- The spelling with one blank around each operator and none elsewhere. -/
def text : Shape → String
  | number value => value.text
  | symbol name => name
  | paren inner => "(" ++ inner.text ++ ")"
  | binary lhs op rhs => lhs.text ++ " " ++ op.text ++ " " ++ rhs.text

/-- The expression that a shape stands for. -/
def expr : Shape → Except Refusal Expr
  | number value => Expr.ofDouble value
  | symbol name => Expr.ofName name
  | paren inner => inner.expr
  | binary lhs op rhs =>
    match lhs.expr with
    | .error e => .error e
    | .ok l =>
      match rhs.expr with
      | .error e => .error e
      | .ok r => .ok (op.apply l r)

end Shape

theorem Tree.text_eq_shape (t : Tree) : t.text = t.shape.text := by
  induction t with
  | number _ _ | symbol _ _ => rfl
  | paren inner _ ih => simp [text, Shape.text, ih]
  | binary lhs op rhs _ ihl ihr => simp [text, Shape.text, ihl, ihr]

theorem Expr.ofTree_eq_shape (t : Tree) : ofTree t = t.shape.expr := by
  induction t with
  | number _ _ | symbol _ _ => rfl
  | paren inner _ ih => exact ih
  | binary lhs op rhs _ ihl ihr =>
    rw [ofTree, ihl, ihr]
    rfl

namespace Grammar

/-! ## Terminals of characters -/

namespace Terminal

/-- Whether the lexeme of a terminal matches the pattern of its kind. -/
def IsLexeme : Terminal → Prop
  | integer lexeme => TokenKind.integer.Matches lexeme.toList
  | decimal lexeme => TokenKind.decimal.Matches lexeme.toList
  | name lexeme => TokenKind.name.Matches lexeme.toList
  | other lexeme => TokenKind.other.Matches lexeme.toList
  | plus | times | openParen | closeParen => True

/-- The terminals of tokens. Whitespace has none. -/
def ofTokens (ts : List Token) : List Terminal := (ts.filter fun t => !t.isBlank).map ofToken

/-- Terminals depend on no more than signs. -/
theorem ofTokens_eq_signs (ts : List Token) :
    ofTokens ts = (Token.signs ts).map fun s => ofToken ⟨s.1, ⟨0, 0⟩, s.2⟩ := by
  rw [Token.signs, List.map_map]
  rfl

theorem ofTokens_cons {kind : TokenKind} (h : kind ≠ .whitespace) (span : Span) (lexeme : String)
    (ts : List Token) :
    ofTokens (⟨kind, span, lexeme⟩ :: ts) = ofToken ⟨kind, ⟨0, 0⟩, lexeme⟩ :: ofTokens ts := by
  unfold ofTokens
  rw [List.filter_cons_of_pos (by simp [Token.isBlank, h])]
  rfl

/-- The terminals of characters. -/
def ofChars (cs : List Char) : List Terminal := ofTokens (Token.scanFrom 0 cs)

@[simp] theorem ofChars_nil : ofChars [] = [] := by
  rw [ofChars, Token.scanFrom]
  rfl

/-- Where characters begin does not matter to their terminals. -/
theorem ofTokens_scanFrom (start : Nat) (cs : List Char) :
    ofTokens (Token.scanFrom start cs) = ofChars cs := by
  rw [ofChars, ofTokens_eq_signs, Token.signs_scanFrom, ← ofTokens_eq_signs]

/-- Every terminal of a source matches its pattern. -/
theorem isLexeme_of_mem_ofSource {source : String} {w : Terminal} (h : w ∈ ofSource source) :
    w.IsLexeme := by
  obtain ⟨t, ht, rfl⟩ := List.mem_map.1 h
  obtain ⟨hmem, hblank⟩ := List.mem_filter.1 ht
  have hmatch := Token.matches_of_mem_scanFrom hmem
  unfold ofToken
  cases hk : t.kind with
  | whitespace => simp [Token.isBlank, hk] at hblank
  | plus | times | openParen | closeParen => trivial
  | integer | decimal | name | other =>
    rw [hk] at hmatch
    exact hmatch

/-- A token in front of characters that do not go on with it is a terminal of its own. -/
theorem ofChars_token (kind : TokenKind) {cs rest : List Char} (h : kind.Matches cs)
    (hother : kind ≠ .other) (hblank : kind ≠ .whitespace)
    (hrest : ∀ d ∈ rest.head?, kind.Continues d = false) :
    ofChars (cs ++ rest) = ofToken ⟨kind, ⟨0, 0⟩, String.ofList cs⟩ :: ofChars rest := by
  obtain ⟨span, stop, hscan⟩ := Token.scanFrom_append h hother hrest 0
  rw [ofChars, hscan, ofTokens_cons hblank, ofTokens_scanFrom]

/-- Blanks in front of characters do not matter to their terminals. -/
theorem ofChars_blank {c : Char} (h : Token.isBlankChar c = true) (cs : List Char) :
    ofChars (c :: cs) = ofChars cs := by
  rw [ofChars, ofTokens_eq_signs, Token.signs_blank h, ← ofTokens_eq_signs, ofChars]

/-- The characters in front of which every literal ends. -/
def Ends (rest : List Char) : Prop :=
  ∀ c ∈ rest.head?, c.isAlpha = false ∧ c.isDigit = false ∧ c ≠ '.'

theorem ends_nil : Ends [] := nofun

theorem ends_blank (cs : List Char) : Ends (' ' :: cs) := by
  rintro _ ⟨⟩
  decide

theorem ends_closeParen (cs : List Char) : Ends (')' :: cs) := by
  rintro _ ⟨⟩
  decide

variable {lexeme : String} {rest : List Char}

theorem ofChars_integer (h : (integer lexeme).IsLexeme) (hrest : Ends rest) :
    ofChars (lexeme.toList ++ rest) = integer lexeme :: ofChars rest := by
  have hstop : ∀ d ∈ rest.head?, TokenKind.integer.Continues d = false := by
    intro d hd
    obtain ⟨-, hdigit, hpoint⟩ := hrest d hd
    simp [TokenKind.Continues, hdigit, hpoint]
  rw [ofChars_token .integer h (by decide) (by decide) hstop, String.ofList_toList]
  rfl

theorem ofChars_decimal (h : (decimal lexeme).IsLexeme) (hrest : Ends rest) :
    ofChars (lexeme.toList ++ rest) = decimal lexeme :: ofChars rest := by
  rw [ofChars_token .decimal h (by decide) (by decide) fun d hd => (hrest d hd).2.1,
    String.ofList_toList]
  rfl

theorem ofChars_name (h : (name lexeme).IsLexeme) (hrest : Ends rest) :
    ofChars (lexeme.toList ++ rest) = name lexeme :: ofChars rest := by
  rw [ofChars_token .name h (by decide) (by decide) fun d hd => (hrest d hd).1,
    String.ofList_toList]
  rfl

theorem ofChars_plus (rest : List Char) : ofChars ('+' :: rest) = plus :: ofChars rest :=
  ofChars_token .plus rfl (by decide) (by decide) fun _ _ => rfl

theorem ofChars_times (rest : List Char) : ofChars ('*' :: rest) = times :: ofChars rest :=
  ofChars_token .times rfl (by decide) (by decide) fun _ _ => rfl

theorem ofChars_openParen (rest : List Char) : ofChars ('(' :: rest) = openParen :: ofChars rest :=
  ofChars_token .openParen rfl (by decide) (by decide) fun _ _ => rfl

theorem ofChars_closeParen (rest : List Char) :
    ofChars (')' :: rest) = closeParen :: ofChars rest :=
  ofChars_token .closeParen rfl (by decide) (by decide) fun _ _ => rfl

end Terminal

/-! ## Texts of derivations -/

namespace Derivation

/-- The spelling with one blank around each operator and none elsewhere. -/
def text : {n : Nonterminal} → Derivation n → String
  | _, term t => t.text
  | _, sum e t => e.text ++ " + " ++ t.text
  | _, factor f => f.text
  | _, product t f => t.text ++ " * " ++ f.text
  | _, integer lexeme => lexeme
  | _, decimal lexeme => lexeme
  | _, name lexeme => lexeme
  | _, paren e => "(" ++ e.text ++ ")"

/-- Whether every terminal can be read: its lexeme matches its pattern, and a numeral is finite. -/
def IsReadable {n : Nonterminal} (d : Derivation n) : Prop :=
  ∀ w ∈ d.yield, w.IsLexeme ∧ w.isFinite = true

/-- A sign between two derivations can always be read. -/
theorem forall_mem_joined {sign : Terminal} {as bs : List Terminal}
    (h : sign.IsLexeme ∧ sign.isFinite = true) :
    (∀ w ∈ as ++ sign :: bs, w.IsLexeme ∧ w.isFinite = true) ↔
      (∀ w ∈ as, w.IsLexeme ∧ w.isFinite = true) ∧ ∀ w ∈ bs, w.IsLexeme ∧ w.isFinite = true := by
  rw [List.forall_mem_append, List.forall_mem_cons]
  exact and_congr_right' (and_iff_right h)

theorem isReadable_sum {e : Derivation .expr} {t : Derivation .term} :
    (sum e t).IsReadable ↔ e.IsReadable ∧ t.IsReadable :=
  forall_mem_joined ⟨trivial, rfl⟩

theorem isReadable_product {t : Derivation .term} {f : Derivation .factor} :
    (product t f).IsReadable ↔ t.IsReadable ∧ f.IsReadable :=
  forall_mem_joined ⟨trivial, rfl⟩

theorem isReadable_paren {e : Derivation .expr} : (paren e).IsReadable ↔ e.IsReadable := by
  unfold IsReadable
  rw [yield, List.forall_mem_cons, List.forall_mem_append, List.forall_mem_singleton]
  constructor
  · rintro ⟨-, he, -⟩
    exact he
  · intro he
    exact ⟨⟨trivial, rfl⟩, he, trivial, rfl⟩

/-- The text of a derivation has its terminals, in front of anything that ends an operand. -/
theorem ofChars_text {n : Nonterminal} (d : Derivation n) (hd : d.IsReadable) (rest : List Char)
    (hrest : Terminal.Ends rest) :
    Terminal.ofChars (d.text.toList ++ rest) = d.yield ++ Terminal.ofChars rest := by
  induction d generalizing rest with
  | term t ih => exact ih hd rest hrest
  | factor f ih => exact ih hd rest hrest
  | sum e t ihe iht =>
    obtain ⟨he, ht⟩ := isReadable_sum.1 hd
    have htext : (sum e t).text.toList ++ rest =
        e.text.toList ++ ' ' :: '+' :: ' ' :: (t.text.toList ++ rest) := by
      simp [text]
    rw [htext, ihe he _ (Terminal.ends_blank _), Terminal.ofChars_blank rfl, Terminal.ofChars_plus,
      Terminal.ofChars_blank rfl, iht ht rest hrest, yield, List.append_assoc, List.cons_append]
  | product t f iht ihf =>
    obtain ⟨ht, hf⟩ := isReadable_product.1 hd
    have htext : (product t f).text.toList ++ rest =
        t.text.toList ++ ' ' :: '*' :: ' ' :: (f.text.toList ++ rest) := by
      simp [text]
    rw [htext, iht ht _ (Terminal.ends_blank _), Terminal.ofChars_blank rfl, Terminal.ofChars_times,
      Terminal.ofChars_blank rfl, ihf hf rest hrest, yield, List.append_assoc, List.cons_append]
  | integer lexeme =>
    have hw := (hd _ (List.mem_singleton_self _)).1
    exact Terminal.ofChars_integer hw hrest
  | decimal lexeme =>
    have hw := (hd _ (List.mem_singleton_self _)).1
    exact Terminal.ofChars_decimal hw hrest
  | name lexeme =>
    have hw := (hd _ (List.mem_singleton_self _)).1
    exact Terminal.ofChars_name hw hrest
  | paren e ih =>
    have htext : (paren e).text.toList ++ rest = '(' :: (e.text.toList ++ ')' :: rest) := by
      simp [text]
    rw [htext, Terminal.ofChars_openParen,
      ih (isReadable_paren.1 hd) _ (Terminal.ends_closeParen _), Terminal.ofChars_closeParen, yield,
      List.cons_append, List.append_assoc]
    rfl

theorem ofSource_text {n : Nonterminal} {d : Derivation n} (hd : d.IsReadable) :
    Terminal.ofSource d.text = d.yield := by
  have h := d.ofChars_text hd [] Terminal.ends_nil
  rwa [Terminal.ofChars_nil, List.append_nil, List.append_nil] at h

/-- The text of a derivation is read as the tree that the derivation stands for. -/
theorem exists_parse_text {e : Derivation .expr} (he : e.IsReadable) :
    ∃ t, Tree.parse e.text = .ok t ∧ t.shape = e.shape := by
  have hterminals : (Cursor.ofSource e.text).terminals = e.yield := ofSource_text he
  obtain ⟨t, c, ht, hc⟩ := expr_of_terminals e (fun w hw => (he w hw).2) (.ofSource e.text) []
    endsRun_nil (by rw [hterminals, List.append_nil])
  refine ⟨t, parse_eq_ok.2 ⟨c, ht, hc⟩, ?_⟩
  -- what was read has a derivation of its own, and there is only one
  obtain ⟨e', he'⟩ := spelt_of_expr ht
  have hyield : e'.yield = e.yield := by
    rw [← hterminals, he'.terminals, hc, List.append_nil]
  rw [he'.shape, eq_of_yield_eq hyield]

/-- Every tree that is read from a source has a derivation that can be read. -/
theorem exists_of_parse {source : String} {t : Tree} (h : Tree.parse source = .ok t) :
    ∃ e : Derivation .expr, e.yield = Terminal.ofSource source ∧ t.shape = e.shape ∧
      e.IsReadable := by
  obtain ⟨c, ht, hc⟩ := parse_eq_ok.1 h
  obtain ⟨e, he⟩ := spelt_of_expr ht
  have hyield : e.yield = Terminal.ofSource source := by
    have := he.terminals
    rw [hc, List.append_nil] at this
    exact this.symm
  refine ⟨e, hyield, he.shape, fun w hw => ⟨?_, he.finite w hw⟩⟩
  rw [hyield] at hw
  exact Terminal.isLexeme_of_mem_ofSource hw

/-! ## Numerals -/

/-- The derivation of a numeral. -/
def numeral (m : Numeral) : Derivation .factor :=
  if m.fraction = [] then integer m.text else decimal m.text

variable {m : Numeral} {n : Number}

@[simp] theorem text_numeral : (numeral m).text = m.text := by
  unfold numeral
  split <;> rfl

theorem shape_numeral (h : Number.ofDecimal? m.decimal = some n) :
    (numeral m).shape = .number n.toDouble := by
  rw [(Number.ofDecimal?_eq_some_iff.1 h).2, ← m.read_text]
  unfold numeral
  split <;> rfl

theorem isReadable_numeral (h : Number.ofDecimal? m.decimal = some n) :
    (numeral m).IsReadable := by
  have hfinite := (Number.ofDecimal?_eq_some_iff.1 h).1
  rw [← m.read_text] at hfinite
  unfold numeral
  split
  · rename_i hfraction
    intro w hw
    obtain rfl := List.mem_singleton.1 hw
    refine ⟨?_, hfinite⟩
    rw [Terminal.IsLexeme, Numeral.text, hfraction, String.toList_ofList]
    exact ⟨m.whole_ne_nil, m.isDigit_whole⟩
  · rename_i hfraction
    intro w hw
    obtain rfl := List.mem_singleton.1 hw
    refine ⟨⟨m.whole, m.fraction, ?_, .inl m.whole_ne_nil, m.isDigit_whole, m.isDigit_fraction⟩,
      hfinite⟩
    rw [Numeral.text, String.toList_ofList, if_neg (by rwa [List.isEmpty_iff])]

end Derivation

end Grammar

end SumProduct
