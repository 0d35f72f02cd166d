/-
Pieces of a source that are parts of its tree. Every node of a tree that was read has a derivation
of its own, spelt by the tokens in the region of the node, so the text of that region is read as the
node again. Nothing that stood around it had a say in how it is grouped.
-/
import SumProduct.Proofs.Grammar.Acceptance
import SumProduct.Proofs.Grammar.Regions
import Mathlib.Data.List.Induction

namespace SumProduct

/-- Whether a region lies within another. -/
def Span.Contains (s t : Span) : Prop := s.start ≤ t.start ∧ t.stop ≤ s.stop

/-! ## Pieces of filtered lists -/

section

variable {α : Type} {p : α → Bool}

theorem exists_filter_head (l : List α) (h : l.filter p ≠ []) :
    ∃ as ms, l = as ++ ms ∧ ms.filter p = l.filter p ∧ ms.head? = (l.filter p).head? := by
  induction l with
  | nil => exact absurd rfl h
  | cons x l ih =>
    by_cases hx : p x = true
    · exact ⟨[], x :: l, rfl, rfl, by rw [List.filter_cons_of_pos hx]; rfl⟩
    · rw [List.filter_cons_of_neg hx] at h ⊢
      obtain ⟨as, ms, rfl, hms, hhead⟩ := ih h
      exact ⟨x :: as, ms, rfl, hms, hhead⟩

theorem exists_filter_getLast (l : List α) (h : l.filter p ≠ []) :
    ∃ ms bs, l = ms ++ bs ∧ ms.filter p = l.filter p ∧ ms.getLast? = (l.filter p).getLast? := by
  induction l using List.reverseRecOn with
  | nil => exact absurd rfl h
  | append_singleton l x ih =>
    rw [List.filter_append] at h ⊢
    by_cases hx : p x = true
    · refine ⟨l ++ [x], [], by simp, by rw [List.filter_append], ?_⟩
      rw [List.filter_cons_of_pos hx, List.filter_nil, List.getLast?_concat, List.getLast?_concat]
    · rw [List.filter_cons_of_neg hx, List.filter_nil, List.append_nil] at h ⊢
      obtain ⟨ms, bs, rfl, hms, hlast⟩ := ih h
      exact ⟨ms, bs ++ [x], by simp, hms, hlast⟩

/-- A piece of what a filter leaves comes from a piece of the list with the same ends. -/
theorem exists_infix_of_filter {l mid : List α} (h : mid <:+: l.filter p) (hne : mid ≠ []) :
    ∃ as ms bs, l = as ++ ms ++ bs ∧ ms.filter p = mid ∧ ms.head? = mid.head? ∧
      ms.getLast? = mid.getLast? := by
  obtain ⟨before, after, h⟩ := h
  obtain ⟨l, bs, rfl, hl, -⟩ := List.filter_eq_append_iff.1 h.symm
  obtain ⟨as, l, rfl, -, rfl⟩ := List.filter_eq_append_iff.1 hl
  obtain ⟨as', l, rfl, hfilter, hhead⟩ := exists_filter_head l hne
  rw [← hfilter] at hne
  obtain ⟨ms, bs', rfl, hms, hlast⟩ := exists_filter_getLast l hne
  refine ⟨as ++ as', ms, bs' ++ bs, by simp, hms.trans hfilter, ?_, ?_⟩
  · have hne' : ms ≠ [] := by
      rintro rfl
      exact hne hms.symm
    rw [← hhead, List.head?_append_of_ne_nil _ hne']
  · rw [hlast, hfilter]

end

/-! ## Regions in order -/

namespace Tree.Covers

variable {ts : List Token}

theorem stop_le {t : Tree} (h : t.Covers ts) {k : Nat} (hts : ∀ u ∈ ts, u.span.stop ≤ k) :
    t.span.stop ≤ k := by
  obtain ⟨_, last, -, hlast, hspan⟩ := h.exists_span_eq
  rw [hspan]
  exact hts last (List.mem_of_getLast? hlast)

theorem le_start {t : Tree} (h : t.Covers ts) {k : Nat} (hts : ∀ u ∈ ts, k ≤ u.span.start) :
    k ≤ t.span.start := by
  obtain ⟨first, _, hfirst, -, hspan⟩ := h.exists_span_eq
  rw [hspan]
  exact hts first (List.mem_of_head? hfirst)

theorem start_le_stop {t : Tree} (h : t.Covers ts) (hts : Token.Ordered ts) :
    t.span.start ≤ t.span.stop := by
  induction t generalizing ts with
  | number _ _ | symbol _ _ =>
    obtain ⟨u, rfl, rfl⟩ := h
    exact hts.start_le_stop u (List.mem_singleton_self u)
  | paren inner _ _ =>
    obtain ⟨opening, us, closing, rfl, -, rfl⟩ := h
    have hsplit : Token.Ordered ([] ++ opening :: (us ++ [closing])) := hts
    obtain ⟨-, -, -, hbehind⟩ := hsplit.split
    calc opening.span.start ≤ opening.span.stop := hts.start_le_stop opening (by simp)
      _ ≤ closing.span.start := hbehind closing (by simp)
      _ ≤ closing.span.stop := hts.start_le_stop closing (by simp)
  | binary lhs op rhs _ ihl ihr =>
    obtain ⟨us, u, vs, rfl, hl, -, hr, rfl⟩ := h
    obtain ⟨hus, hvs, hbefore, hbehind⟩ := hts.split
    calc lhs.span.start ≤ lhs.span.stop := ihl hl hus
      _ ≤ u.span.start := hl.stop_le hbefore
      _ ≤ u.span.stop := hts.start_le_stop u (by simp)
      _ ≤ rhs.span.start := hr.le_start hbehind
      _ ≤ rhs.span.stop := ihr hr hvs

/-- An operator lies between its operands, and both lie in the region of the whole. -/
theorem operands {lhs rhs : Tree} {op : Operator} {s : Span} (h : (binary lhs op rhs s).Covers ts)
    (hts : Token.Ordered ts) :
    lhs.span.stop ≤ op.span.start ∧ op.span.stop ≤ rhs.span.start ∧ s.Contains lhs.span ∧
      s.Contains rhs.span := by
  obtain ⟨us, u, vs, rfl, hl, hop, hr, rfl⟩ := h
  obtain ⟨hus, hvs, hbefore, hbehind⟩ := hts.split
  have hu : u.span.start ≤ u.span.stop := hts.start_le_stop u (by simp)
  have hleft : lhs.span.stop ≤ u.span.start := hl.stop_le hbefore
  have hright : u.span.stop ≤ rhs.span.start := hr.le_start hbehind
  have hls := hl.start_le_stop hus
  have hrs := hr.start_le_stop hvs
  rw [hop]
  refine ⟨hleft, hright, ⟨Nat.le_refl _, ?_⟩, ⟨?_, Nat.le_refl _⟩⟩
  · show lhs.span.stop ≤ rhs.span.stop
    omega
  · show lhs.span.start ≤ rhs.span.start
    omega

end Tree.Covers

namespace Grammar

open Outcome

namespace Derivation

/-! ## Derivations of parts -/

/-- A tree over tokens that a derivation spells, with the shape of the derivation. -/
structure Reads {n : Nonterminal} (d : Derivation n) (ts : List Token) (t : Tree) : Prop where
  yield : ts.map .ofToken = d.yield
  shape : t.shape = d.shape
  covers : t.Covers ts

/-- A term or a factor as an expression. -/
def toExpr : {n : Nonterminal} → Derivation n → Derivation .expr
  | .expr, d => d
  | .term, t => .term t
  | .factor, f => .term (.factor f)

theorem length_yield {n : Nonterminal} (d : Derivation n) : d.yield.length = d.shape.width := by
  induction d with
  | term t ih => exact ih
  | factor f ih => exact ih
  | sum e t ihe iht => simp [Shape.width, ihe, iht, Nat.add_assoc]
  | product t f iht ihf => simp [Shape.width, iht, ihf, Nat.add_assoc]
  | integer _ | decimal _ | name _ => rfl
  | paren e ih => simp [Shape.width, ih]

theorem Reads.toExpr {n : Nonterminal} {d : Derivation n} {ts : List Token} {t : Tree}
    (h : d.Reads ts t) : d.toExpr.Reads ts t := by
  cases n <;> exact ⟨h.yield, h.shape, h.covers⟩

/-- The operands of a tree that stands for a derivation stand for the derivations of its parts. -/
theorem Reads.operands {m n k : Nonterminal} {d : Derivation m} {l : Derivation n}
    {r : Derivation k} {kind : OperatorKind} {ts : List Token} {t : Tree} (h : d.Reads ts t)
    (hyield : d.yield = l.yield ++ .ofOperator kind :: r.yield)
    (hshape : d.shape = .binary l.shape kind r.shape) :
    ∃ lhs op rhs s us u vs, t = .binary lhs op rhs s ∧ ts = us ++ u :: vs ∧ l.Reads us lhs ∧
      r.Reads vs rhs := by
  obtain ⟨hy, hs, hc⟩ := h
  rw [hshape] at hs
  cases t with
  | number _ _ | symbol _ _ | paren _ _ => cases hs
  | binary lhs op rhs s =>
    obtain ⟨hls, -, hrs⟩ := Shape.binary.inj hs
    obtain ⟨us, u, vs, rfl, hl, -, hr, -⟩ := hc
    rw [hyield, List.map_append, List.map_cons] at hy
    -- the shapes say how many tokens each operand takes
    have hlength : (us.map Terminal.ofToken).length = l.yield.length := by
      rw [List.length_map, hl.length_eq, length_yield, hls]
    obtain ⟨hly, hy⟩ := List.append_inj hy hlength
    exact ⟨lhs, op, rhs, s, us, u, vs, rfl, rfl, ⟨hly, hls, hl⟩,
      ⟨(List.cons.inj hy).2, hrs, hr⟩⟩

/-- Whether a tree stands for a derivation of some of the tokens, which lie side by side. -/
def IsPart (ts : List Token) (node : Tree) : Prop :=
  ∃ (e : Derivation .expr) (us : List Token), us <:+: ts ∧ e.Reads us node

theorem IsPart.mono {us ts : List Token} {node : Tree} (h : IsPart us node) (hus : us <:+: ts) :
    IsPart ts node := by
  obtain ⟨e, vs, hvs, he⟩ := h
  exact ⟨e, vs, hvs.trans hus, he⟩

theorem Reads.isPart {n : Nonterminal} {d : Derivation n} {ts : List Token} {t : Tree}
    (h : d.Reads ts t) : IsPart ts t :=
  ⟨d.toExpr, ts, List.infix_rfl, h.toExpr⟩

/-- A node of a tree with operands is a node of one of them or the tree itself. -/
theorem Reads.isPart_of_operands {m n k : Nonterminal} {d : Derivation m} {l : Derivation n}
    {r : Derivation k} {ts : List Token} {t node : Tree} (h : d.Reads ts t) (kind : OperatorKind)
    (hyield : d.yield = l.yield ++ .ofOperator kind :: r.yield)
    (hshape : d.shape = .binary l.shape kind r.shape) (hnode : node ∈ t.postOrder)
    (hl : ∀ {ts t}, l.Reads ts t → node ∈ t.postOrder → IsPart ts node)
    (hr : ∀ {ts t}, r.Reads ts t → node ∈ t.postOrder → IsPart ts node) : IsPart ts node := by
  obtain ⟨lhs, op, rhs, s, us, u, vs, rfl, rfl, hlhs, hrhs⟩ := h.operands hyield hshape
  rcases List.mem_append.1 hnode with hnode | hnode
  · rcases List.mem_append.1 hnode with hnode | hnode
    · exact (hl hlhs hnode).mono (List.prefix_append us _).isInfix
    · exact (hr hrhs hnode).mono ((List.suffix_cons u vs).isInfix.trans
        (List.suffix_append us _).isInfix)
  · obtain rfl := List.mem_singleton.1 hnode
    exact h.isPart

/-- Every node of a tree that stands for a derivation stands for a derivation of some of the
tokens. -/
theorem Reads.isPart_of_mem {n : Nonterminal} {d : Derivation n} {ts : List Token} {t node : Tree}
    (h : d.Reads ts t) (hnode : node ∈ t.postOrder) : IsPart ts node := by
  induction d generalizing ts t with
  | term t ih => exact ih ⟨h.yield, h.shape, h.covers⟩ hnode
  | factor f ih => exact ih ⟨h.yield, h.shape, h.covers⟩ hnode
  | sum e t ihe iht => exact h.isPart_of_operands .plus rfl rfl hnode ihe iht
  | product t f iht ihf => exact h.isPart_of_operands .times rfl rfl hnode iht ihf
  | integer _ | decimal _ | name _ =>
    have hs := h.shape
    cases t with
    | number _ _ | symbol _ _ =>
      obtain rfl := List.mem_singleton.1 hnode
      exact h.isPart
    | paren _ _ | binary _ _ _ _ => cases hs
  | paren e ih =>
    have hs := h.shape
    cases t with
    | number _ _ | symbol _ _ | binary _ _ _ _ => cases hs
    | paren inner s =>
      rcases List.mem_append.1 hnode with hnode | hnode
      · obtain ⟨opening, us, closing, rfl, hinner, -⟩ := h.covers
        have hy := h.yield
        rw [List.map_cons, List.map_append, List.map_singleton, Derivation.yield] at hy
        obtain ⟨hy, -⟩ := List.append_singleton_inj.1 (List.cons.inj hy).2
        have hpart := ih ⟨hy, Shape.paren.inj hs, hinner⟩ hnode
        exact hpart.mono ⟨[opening], [closing], by simp⟩
      · obtain rfl := List.mem_singleton.1 hnode
        exact h.isPart

end Derivation

theorem reads_of_expr {c c' : Cursor} {t : Tree} (h : (expr c).Gives t c') :
    ∃ (d : Derivation .expr) (ts : List Token), c.tokens = ts ++ c'.tokens ∧ d.Reads ts t ∧
      ∀ w ∈ d.yield, w.isFinite = true := by
  obtain ⟨d, hd⟩ := spelt_of_expr h
  obtain ⟨ts, hts, hc⟩ := covers_of_expr h
  refine ⟨d, ts, hts, ⟨?_, hd.shape, hc⟩, hd.finite⟩
  have hterminals := hd.terminals
  rw [Cursor.terminals, hts, List.map_append] at hterminals
  exact List.append_cancel_right hterminals

/-- Tokens that a derivation spells are read as the tree that stands for it, wherever they lie. -/
theorem parse_of_reads {source : String} {k : Nat} {e : Derivation .expr} {node : Tree}
    (h : e.Reads ((Cursor.ofSource source).tokens.map (Token.shift k)) node)
    (hfinite : ∀ w ∈ e.yield, w.isFinite = true) :
    ∃ t, Tree.parse source = .ok t ∧ t.shift k = node := by
  have hterminals : (Cursor.ofSource source).terminals = e.yield := by
    rw [← h.yield, List.map_map]
    rfl
  obtain ⟨t, c, ht, hc⟩ := expr_of_terminals e hfinite (.ofSource source) [] endsRun_nil
    (by rw [hterminals, List.append_nil])
  refine ⟨t, parse_eq_ok.2 ⟨c, ht, hc⟩, ?_⟩
  obtain ⟨d, ts, hts, hd, -⟩ := reads_of_expr ht
  rw [List.map_eq_nil_iff.1 hc, List.append_nil] at hts
  -- what was read has a derivation of its own, and there is only one
  have hde : d = e := by
    apply Derivation.eq_of_yield_eq
    rw [← hd.yield, ← hts]
    exact hterminals
  refine ((hts ▸ hd.covers).shift k).unique h.covers ?_
  rw [Tree.shape_shift, hd.shape, h.shape, hde]

/-- The text in the region of a tree is read as that tree, if the tree stands for a derivation of
tokens that lie side by side in a source. -/
theorem parse_slice_of_reads {source : String} {mid : List Token} {e : Derivation .expr}
    {node : Tree} (hmid : mid <:+: (Cursor.ofSource source).tokens) (he : e.Reads mid node)
    (hfinite : ∀ w ∈ e.yield, w.isFinite = true) :
    ∃ text t, node.span.slice? source = some text ∧ Tree.parse text = .ok t ∧
      t.shift node.span.start = node := by
  obtain ⟨as, ms, bs, hscan, hms, hhead, hlast⟩ := exists_infix_of_filter hmid he.covers.ne_nil
  rw [show (Cursor.ofSource source).rest = Token.scan source from rfl] at hscan
  obtain ⟨first, last, hfirst, hl, hspan⟩ := he.covers.exists_span_eq
  have hstart : node.span.start = String.utf8Len (Token.chars as) := by
    obtain ⟨ms', rfl⟩ := List.head?_eq_some_iff.1 (hhead.trans hfirst)
    have hfront : Token.scan source = as ++ first :: (ms' ++ bs) := by simpa using hscan
    rw [hspan, Span.cover, Token.span_of_scan hfront]
  have htokens : (Cursor.ofSource (.ofList (Token.chars ms))).tokens.map
      (Token.shift node.span.start) = mid := by
    rw [hstart, ← hms]
    conv_rhs => rw [← Token.map_shift_scan hscan, List.filter_map]
    rfl
  obtain ⟨t, ht, hshift⟩ := parse_of_reads (htokens ▸ he) hfinite
  refine ⟨_, t, ?_, ht, hshift⟩
  rw [hspan]
  exact Token.slice?_scan hscan (hhead.trans hfirst) (hlast.trans hl)

end Grammar

namespace Tree

open Grammar

/-- The text in the region of a node of a tree that was read is read as that node, at the same
distances from its start. Operators lie between their operands, and these in the region of the
whole. -/
theorem parse_slice_of_node {source : String} {t node : Tree} (h : parse source = .ok t)
    (hnode : node ∈ t.postOrder) :
    (∃ text t', node.span.slice? source = some text ∧ parse text = .ok t' ∧
      t'.shift node.span.start = node) ∧
    ∀ lhs op rhs s, node = binary lhs op rhs s →
      lhs.span.stop ≤ op.span.start ∧ op.span.stop ≤ rhs.span.start ∧
        s.Contains lhs.span ∧ s.Contains rhs.span := by
  obtain ⟨c, ht, hc⟩ := parse_eq_ok.1 h
  obtain ⟨d, ts, hts, hd, hfinite⟩ := reads_of_expr ht
  rw [List.map_eq_nil_iff.1 hc, List.append_nil] at hts
  obtain ⟨e, mid, hmid, he⟩ := hd.isPart_of_mem hnode
  constructor
  · refine parse_slice_of_reads (hts ▸ hmid) he fun w hw => hfinite w ?_
    rw [← he.yield] at hw
    rw [← hd.yield]
    exact (hmid.map Terminal.ofToken).subset hw
  · rintro lhs op rhs s rfl
    have hordered : Token.Ordered ts := by
      rw [← hts]
      exact (Token.scan_ordered source).sublist List.filter_sublist
    exact he.covers.operands (hordered.sublist hmid.sublist)

/-- In ` x+2 *(y + .5)` the product behind the plus takes the bytes from the fourth on, and the text
there is read as that product. -/
theorem parse_slice_of_node_product :
    ∃ t lhs op rhs, parse " x+2 *(y + .5)" = .ok t ∧
      binary lhs op rhs ⟨3, 14⟩ ∈ t.postOrder ∧ op.span = ⟨5, 6⟩ ∧
      (∃ text t', Span.slice? ⟨3, 14⟩ " x+2 *(y + .5)" = some text ∧ parse text = .ok t' ∧
        t'.shift 3 = binary lhs op rhs ⟨3, 14⟩) ∧
      lhs.span.stop ≤ op.span.start ∧ op.span.stop ≤ rhs.span.start := by
  let fraction : Tree := number ⟨0x3FE0000000000000⟩ ⟨11, 13⟩
  let lhs : Tree := number ⟨0x4000000000000000⟩ ⟨3, 4⟩
  let rhs : Tree := paren (binary (symbol "y" ⟨7, 8⟩) ⟨.plus, ⟨9, 10⟩⟩ fraction ⟨7, 13⟩) ⟨6, 14⟩
  let product : Tree := binary lhs ⟨.times, ⟨5, 6⟩⟩ rhs ⟨3, 14⟩
  have hparse : parse " x+2 *(y + .5)" =
      .ok (binary (symbol "x" ⟨1, 2⟩) ⟨.plus, ⟨2, 3⟩⟩ product ⟨1, 14⟩) := by
    decide +kernel
  have hnode :
      product ∈ (binary (symbol "x" ⟨1, 2⟩) ⟨.plus, ⟨2, 3⟩⟩ product ⟨1, 14⟩).postOrder := by
    decide +kernel
  obtain ⟨hslice, hoperands⟩ := parse_slice_of_node hparse hnode
  obtain ⟨hleft, hright, -, -⟩ := hoperands lhs _ rhs _ rfl
  exact ⟨_, lhs, _, rhs, hparse, hnode, rfl, hslice, hleft, hright⟩

end Tree

end SumProduct
