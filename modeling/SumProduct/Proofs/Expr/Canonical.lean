/-
Canonical texts. A number has the text of the decimal of six places nearest to it, and the number
that is read from the text has the same text, so the text of an expression does not change any more
by being read and written. The numbers of an expression that was read are read from numerals of the
source: if these have six places at most, reading the text of the expression gives the expression.
-/
import SumProduct.Proofs.Number.Canonical
import SumProduct.Proofs.Expr.RoundTrip

namespace SumProduct

namespace Expr

open Grammar

/-! ## Texts -/

/-- Numbers with the texts of others can take their places in a text. -/
theorem text_mapNumbers {f : Number → Number} (hf : ∀ n, (f n).text = n.text) (e : Expr) :
    (e.mapNumbers f).text = e.text := by
  induction e with
  | number n => exact hf n
  | symbol x => rfl
  | sum l r ihl ihr | product l r ihl ihr => rw [mapNumbers, text, ihl, ihr, text]

/-! ## Numbers and numerals -/

theorem numbers_apply (op : OperatorKind) (l r : Expr) :
    (op.apply l r).numbers = l.numbers ++ r.numbers := by
  cases op <;> rfl

theorem numbers_eq_nil_of_ofName {name : String} {e : Expr} (h : ofName name = .ok e) :
    e.numbers = [] := by
  unfold ofName at h
  split at h
  · cases h
    rfl
  · cases h

/-- What is built from an operator and operands is built from what these are built as. -/
theorem exists_operands {l r : Shape} {op : OperatorKind} {e : Expr}
    (h : (Shape.binary l op r).expr = .ok e) :
    ∃ l' r', l.expr = .ok l' ∧ r.expr = .ok r' ∧ e = op.apply l' r' := by
  rw [Shape.expr] at h
  split at h
  · cases h
  · rename_i l' hl
    split at h
    · cases h
    · rename_i r' hr
      cases h
      exact ⟨l', r', hl, hr, rfl⟩

end Expr

namespace Grammar

/-- Whether a number is read from a numeral among terminals. -/
def Spells (ws : List Terminal) (n : Number) : Prop :=
  ∃ lexeme, (.integer lexeme ∈ ws ∨ .decimal lexeme ∈ ws) ∧
    Number.ofDecimal? (Decimal.read lexeme) = some n

theorem Spells.mono {ws ws' : List Terminal} {n : Number} (h : Spells ws n) (hsub : ws ⊆ ws') :
    Spells ws' n := by
  obtain ⟨lexeme, hmem, hn⟩ := h
  exact ⟨lexeme, hmem.imp (fun h => hsub h) fun h => hsub h, hn⟩

/-- The numbers that an operator joins are spelt on both sides of its sign. -/
theorem spells_of_mem_apply {op : OperatorKind} {l r : Expr} {n : Number} {ls rs : List Terminal}
    (sign : Terminal) (hl : n ∈ l.numbers → Spells ls n) (hr : n ∈ r.numbers → Spells rs n)
    (hn : n ∈ (op.apply l r).numbers) : Spells (ls ++ sign :: rs) n := by
  rw [Expr.numbers_apply] at hn
  rcases List.mem_append.1 hn with hn | hn
  · exact (hl hn).mono (List.subset_append_left _ _)
  · exact (hr hn).mono fun w hw => List.mem_append_right _ (List.mem_cons_of_mem _ hw)

namespace Derivation

/-- A numeral is the only number of what it stands for. -/
theorem eq_of_mem_numbers_numeral {lexeme : String} {e : Expr} {n : Number}
    (hfinite : (Decimal.read lexeme).toDouble.isFinite = true)
    (he : Expr.ofDouble (Decimal.read lexeme).toDouble = .ok e) (hn : n ∈ e.numbers) :
    Number.ofDecimal? (Decimal.read lexeme) = some n := by
  obtain ⟨m, hm⟩ := Number.exists_ofDecimal? hfinite
  rw [← (Number.ofDecimal?_eq_some_iff.1 hm).2, Expr.ofDouble, Number.ofDouble_toDouble] at he
  cases he
  rw [List.mem_singleton.1 hn]
  exact hm

/-- The numbers of an expression are read from the numerals of its derivation. -/
theorem spells_of_mem_numbers {k : Nonterminal} (d : Derivation k) (hd : d.IsReadable) {e : Expr}
    (he : d.shape.expr = .ok e) {n : Number} (hn : n ∈ e.numbers) : Spells d.yield n := by
  induction d generalizing e with
  | term t ih => exact ih hd he hn
  | factor f ih => exact ih hd he hn
  | integer lexeme =>
    have hfinite := (hd _ (List.mem_singleton_self _)).2
    exact ⟨lexeme, .inl (List.mem_singleton_self _), eq_of_mem_numbers_numeral hfinite he hn⟩
  | decimal lexeme =>
    have hfinite := (hd _ (List.mem_singleton_self _)).2
    exact ⟨lexeme, .inr (List.mem_singleton_self _), eq_of_mem_numbers_numeral hfinite he hn⟩
  | name lexeme =>
    rw [Expr.numbers_eq_nil_of_ofName he] at hn
    cases hn
  | paren e ih =>
    refine (ih (isReadable_paren.1 hd) he hn).mono fun w hw => ?_
    exact List.mem_cons_of_mem _ (List.mem_append_left _ hw)
  | sum l r ihl ihr =>
    obtain ⟨hl, hr⟩ := isReadable_sum.1 hd
    obtain ⟨l', r', hl', hr', rfl⟩ := Expr.exists_operands he
    exact spells_of_mem_apply .plus (ihl hl hl') (ihr hr hr') hn
  | product l r ihl ihr =>
    obtain ⟨hl, hr⟩ := isReadable_product.1 hd
    obtain ⟨l', r', hl', hr', rfl⟩ := Expr.exists_operands he
    exact spells_of_mem_apply .times (ihl hl hl') (ihr hr hr') hn

end Derivation

end Grammar

namespace Expr

open Grammar

/-- The numbers of an expression that was read are read from numerals of the source. -/
theorem exists_numeral_of_parse {source : String} {e : Expr} (h : parse source = .ok e) {n : Number}
    (hn : n ∈ e.numbers) :
    ∃ t ∈ Token.scan source, (t.kind = .integer ∨ t.kind = .decimal) ∧
      Number.ofDecimal? (Decimal.read t.lexeme) = some n := by
  obtain ⟨t, ht, he⟩ := exists_shape_of_parse h
  obtain ⟨d, hyield, hshape, hd⟩ := Derivation.exists_of_parse ht
  rw [hshape] at he
  obtain ⟨lexeme, hmem, hread⟩ := d.spells_of_mem_numbers hd he hn
  rw [hyield, Terminal.ofSource, List.mem_map, List.mem_map] at hmem
  rcases hmem with ⟨t', ht', hw⟩ | ⟨t', ht', hw⟩
  · obtain ⟨hkind, rfl⟩ := Terminal.ofToken_eq_iff.1 hw
    exact ⟨t', (List.mem_filter.1 ht').1, .inl hkind, hread⟩
  · obtain ⟨hkind, rfl⟩ := Terminal.ofToken_eq_iff.1 hw
    exact ⟨t', (List.mem_filter.1 ht').1, .inr hkind, hread⟩

/-- Whether no numeral of a source has more than so many places. -/
def LiteralsWithin (places : Nat) (source : String) : Prop :=
  ∀ t ∈ Token.scan source, t.kind = .integer ∨ t.kind = .decimal →
    (Decimal.read t.lexeme).places ≤ places

/-- Canonical texts are stable. A finite double that is not below zero has the text of the one
decimal of six places nearest to it, a tie going to the even digit. The one double nearest to that
decimal is finite, it is what is read from the text, and its text is the same. It is equal to the
first double if that is the nearest one to some decimal of at most six places. So an expression has
a text that does not change by being read and written, and an expression from a source without
numerals of more places is read from its own text. -/
theorem canonical_text_stable :
    (∀ v : Double, Double.zero.atMost v = true → v.isFinite = true →
      ∃ n s w, Number.ofDouble v = .ok n ∧ n.text = s.text ∧
        (∀ d : Decimal, d.places = 6 ∧ d.IsNearest (Double.value v.rank) ↔ d = s) ∧
        Decimal.read n.text = s ∧ Number.ofDecimal? s = some w ∧
        (∀ x, Double.IsRounded s.value x ↔ x = w.toDouble) ∧ w.toDouble.isFinite = true ∧
        w.text = n.text ∧
        ∀ (d : Decimal) (x : Double), d.places ≤ 6 → Double.IsRounded d.value x →
          x.equal v = true → w.toDouble.equal v = true) ∧
      (∀ e : Expr, ∃ e', parse e.text = .ok e' ∧ e'.text = e.text) ∧
      ∀ (source : String) (e : Expr), parse source = .ok e → LiteralsWithin 6 source →
        parse e.text = .ok e := by
  refine ⟨fun v => Number.exists_canonical_text, fun e => ?_, fun source e he hplaces => ?_⟩
  · exact ⟨_, parse_text e, text_mapNumbers Number.text_reread e⟩
  · refine parse_text_eq_self_iff.2 fun n hn => Number.reread_eq_self_iff.2 ?_
    obtain ⟨t, ht, hkind, hread⟩ := exists_numeral_of_parse he hn
    exact ⟨_, hplaces t ht hkind, hread⟩

/-- At the least double, and at a millionth, which takes all six places. -/
theorem canonical_text_stable_millionth :
    (∃ n w, Number.ofDouble ⟨1⟩ = .ok n ∧ Number.ofDecimal? (Decimal.read n.text) = some w ∧
      w.text = n.text) ∧
      ∃ e, parse "0.000001 * (x + .25)" = .ok e ∧ LiteralsWithin 6 "0.000001 * (x + .25)" ∧
        parse e.text = .ok e := by
  obtain ⟨hnumber, -, hsource⟩ := canonical_text_stable
  constructor
  · obtain ⟨n, s, w, hn, -, -, hread, hw, -, -, htext, -⟩ := hnumber ⟨1⟩ (by decide) (by decide)
    exact ⟨n, w, hn, hread ▸ hw, htext⟩
  · have hparse : parse "0.000001 * (x + .25)" = .ok (.product
        (.number ⟨0x3EB0C6F7A0B5ED8D, by decide⟩)
        (.sum (.symbol ⟨"x", by decide⟩) (.number ⟨0x3FD0000000000000, by decide⟩))) := by
      decide +kernel
    have hplaces : LiteralsWithin 6 "0.000001 * (x + .25)" := by
      unfold LiteralsWithin
      decide +kernel
    exact ⟨_, hparse, hplaces, hsource _ _ hparse hplaces⟩

end Expr

end SumProduct
