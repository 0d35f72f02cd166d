/-
Where one token ends and the next begins. Scanning a source again from the end of a token gives the
tokens behind it, and scanning it no further than the end of a token gives the tokens up to there.
So a piece of a source between two ends of tokens has the tokens that the source has there, at the
same distances from its start.
-/
import SumProduct.Proofs.Token.Pattern
import Mathlib.Data.String.Basic

namespace SumProduct

/-! ## Regions -/

namespace Span

/-- The region that lies a number of bytes further behind. -/
def shift (k : Nat) (s : Span) : Span := ⟨k + s.start, k + s.stop⟩

/-- The text in a region of a source, if both its ends lie between characters. -/
def slice? (s : Span) (source : String) : Option String :=
  if s.start ≤ s.stop ∧ String.Pos.Raw.isValid source ⟨s.start⟩ = true ∧
      String.Pos.Raw.isValid source ⟨s.stop⟩ = true then
    some (String.Pos.Raw.extract source ⟨s.start⟩ ⟨s.stop⟩)
  else none

theorem cover_shift (k : Nat) (a b : Span) :
    (a.shift k).cover (b.shift k) = (a.cover b).shift k := rfl

theorem isValid_of_append (l r : List Char) :
    String.Pos.Raw.isValid (String.ofList (l ++ r)) ⟨String.utf8Len l⟩ = true := by
  rw [String.Pos.Raw.isValid_eq_true_iff, String.Pos.Raw.isValid_iff_exists_append]
  exact ⟨String.ofList l, String.ofList r, String.ofList_append, (String.rawEndPos_ofList l).symm⟩

/-- A piece of a source is found at the region from its start to its end. -/
theorem slice?_append (l m r : List Char) :
    slice? ⟨String.utf8Len l, String.utf8Len (l ++ m)⟩ (String.ofList (l ++ m ++ r)) =
      some (String.ofList m) := by
  have hstart := isValid_of_append l (m ++ r)
  rw [← List.append_assoc] at hstart
  have hstop := isValid_of_append (l ++ m) r
  have hle : String.utf8Len l ≤ String.utf8Len (l ++ m) := by
    rw [String.utf8Len_append]
    exact Nat.le_add_right _ _
  unfold slice?
  rw [if_pos ⟨hle, hstart, hstop⟩, String.utf8Len_append, String.extract_of_valid]

end Span

namespace Token

/-- The token that lies a number of bytes further behind. -/
def shift (k : Nat) (t : Token) : Token := { t with span := t.span.shift k }

/-- The characters of tokens, one token after the other. -/
def chars (ts : List Token) : List Char := ts.flatMap fun t => t.lexeme.toList

@[simp] theorem chars_nil : chars [] = [] := rfl

@[simp] theorem chars_cons (t : Token) (ts : List Token) :
    chars (t :: ts) = t.lexeme.toList ++ chars ts := rfl

@[simp] theorem chars_append (as bs : List Token) : chars (as ++ bs) = chars as ++ chars bs :=
  List.flatMap_append

/-! ## The end of a token -/

theorem head?_drop_run {p : Char → Bool} {cs : List Char} {d : Char}
    (h : d ∈ (cs.drop (run p cs)).head?) : p d = false := by
  rw [drop_run] at h
  have := List.head?_dropWhile_not p cs
  rwa [Option.mem_def.1 h] at this

theorem run_eq_zero_iff {p : Char → Bool} {cs : List Char} :
    run p cs = 0 ↔ ∀ d ∈ cs.head?, p d = false := by
  cases cs with
  | nil => simp [run]
  | cons c cs => cases hc : p c <;> simp [run, hc]

/-- The ways in which a token can start. -/
theorem first_cases (c : Char) (cs : List Char) :
    isBlankChar c = true ∧ first c cs = (.whitespace, run isBlankChar cs) ∨
    c.isAlpha = true ∧ first c cs = (.name, run Char.isAlpha cs) ∨
    (∃ rest, cs.dropWhile Char.isDigit = '.' :: rest ∧
      first c cs = (.decimal, run Char.isDigit cs + 1 + run Char.isDigit rest)) ∨
    ((cs.dropWhile Char.isDigit).head? ≠ some '.' ∧
      first c cs = (.integer, run Char.isDigit cs)) ∨
    first c cs = (.decimal, run Char.isDigit cs) ∨
    isBlankChar c = false ∧ c.isAlpha = false ∧ c.isDigit = false ∧
      (c = '.' → run Char.isDigit cs = 0) := by
  by_cases hblank : isBlankChar c = true
  · exact .inl ⟨hblank, first_of_blank hblank cs⟩
  by_cases halpha : c.isAlpha = true
  · exact .inr (.inl ⟨halpha, first_of_alpha halpha cs⟩)
  by_cases hdigit : c.isDigit = true
  · by_cases hpoint : (cs.dropWhile Char.isDigit).head? = some '.'
    · obtain ⟨rest, hrest⟩ := List.head?_eq_some_iff.1 hpoint
      exact .inr (.inr (.inl ⟨rest, hrest, first_of_digits_point hdigit hrest⟩))
    · exact .inr (.inr (.inr (.inl ⟨hpoint, first_of_digits hdigit hpoint⟩)))
  by_cases hpoint : c = '.' ∧ 0 < run Char.isDigit cs
  · obtain ⟨rfl, hpos⟩ := hpoint
    exact .inr (.inr (.inr (.inr (.inl (first_of_point hpos)))))
  · refine .inr (.inr (.inr (.inr (.inr ⟨Bool.eq_false_iff.2 hblank, Bool.eq_false_iff.2 halpha,
      Bool.eq_false_iff.2 hdigit, fun hc => ?_⟩))))
    by_contra hne
    exact hpoint ⟨hc, Nat.pos_of_ne_zero hne⟩

/-- A single character that starts no longer token is of a kind that no character goes on with. -/
theorem continues_of_matches_singleton {kind : TokenKind} {c : Char} (h : kind.Matches [c])
    (hblank : isBlankChar c = false) (halpha : c.isAlpha = false) (hdigit : c.isDigit = false)
    (d : Char) : kind.Continues d = false := by
  cases kind with
  | plus | times | openParen | closeParen | other => rfl
  | whitespace =>
    have := h.2 c (List.mem_singleton_self c)
    rw [hblank] at this
    cases this
  | name =>
    have := h.2 c (List.mem_singleton_self c)
    rw [halpha] at this
    cases this
  | integer =>
    have := h.2 c (List.mem_singleton_self c)
    rw [hdigit] at this
    cases this
  | decimal =>
    -- a point with a digit before or after it takes two characters
    obtain ⟨whole, fraction, he, hne, -⟩ := h
    have hlength : 1 = whole.length + (fraction.length + 1) := by
      simpa using congrArg List.length he
    rcases hne with hne | hne <;>
      · have := List.length_pos_iff.2 hne
        omega

/-- The character behind a token does not go on with it. -/
theorem continues_first {c d : Char} {cs : List Char} (hd : d ∈ (cs.drop (first c cs).2).head?) :
    (first c cs).1.Continues d = false := by
  rcases first_cases c cs with ⟨-, h⟩ | ⟨-, h⟩ | ⟨rest, hrest, h⟩ | ⟨hpoint, h⟩ | h |
    ⟨hblank, halpha, hdigit, hpoint⟩
  · rw [h] at hd ⊢
    exact head?_drop_run hd
  · rw [h] at hd ⊢
    exact head?_drop_run hd
  · rw [h, Nat.add_assoc, ← List.drop_drop, drop_run, hrest, Nat.add_comm 1,
      List.drop_succ_cons] at hd
    rw [h]
    exact head?_drop_run hd
  · rw [h] at hd ⊢
    rw [TokenKind.Continues, Bool.or_eq_false_iff]
    refine ⟨head?_drop_run hd, beq_eq_false_iff_ne.2 ?_⟩
    rintro rfl
    rw [drop_run] at hd
    exact hpoint hd
  · rw [h] at hd ⊢
    exact head?_drop_run hd
  · obtain ⟨-, hmatch⟩ := first_of_else cs hblank halpha hdigit hpoint
    exact continues_of_matches_singleton hmatch hblank halpha hdigit d

/-- No token but whitespace goes on with a blank. -/
theorem continues_blank {kind : TokenKind} (hkind : kind ≠ .whitespace) {d : Char}
    (hd : isBlankChar d = true) : kind.Continues d = false := by
  have halpha : d.isAlpha = false := by
    by_contra h
    rw [isBlankChar_of_isAlpha (Bool.eq_true_of_not_eq_false h)] at hd
    cases hd
  have hdigit : d.isDigit = false := by
    by_contra h
    rw [isBlankChar_of_isDigit (Bool.eq_true_of_not_eq_false h)] at hd
    cases hd
  have hpoint : d ≠ '.' := by
    rintro rfl
    revert hd
    decide
  cases kind with
  | whitespace => exact absurd rfl hkind
  | name => exact halpha
  | decimal => exact hdigit
  | integer => simp [TokenKind.Continues, hdigit, hpoint]
  | plus | times | openParen | closeParen | other => rfl

/-- Whether characters can stand behind a token instead of others without changing it: they start
with the same character, or with a blank and the token is no whitespace, or there are none. -/
def Replaces (kind : TokenKind) (rest rest' : List Char) : Prop :=
  ∀ d ∈ rest'.head?, d ∈ rest.head? ∨ isBlankChar d = true ∧ kind ≠ .whitespace

/-- A character of no other kind is of no other kind whatever replaces what stands behind it. -/
theorem first_other_of_replaces {c : Char} {rest rest' : List Char}
    (h : first c rest = (.other, 0)) (hrest : Replaces .other rest rest') :
    first c rest' = (.other, 0) := by
  have hcases := first_cases c rest
  rw [h] at hcases
  obtain ⟨hblank, halpha, hdigit, hpoint⟩ : isBlankChar c = false ∧ c.isAlpha = false ∧
      c.isDigit = false ∧ (c = '.' → run Char.isDigit rest = 0) := by simpa using hcases
  have hpoint' : c = '.' → run Char.isDigit rest' = 0 := by
    intro hc
    refine run_eq_zero_iff.2 fun d hd => ?_
    rcases hrest d hd with hd | ⟨hd, -⟩
    · exact run_eq_zero_iff.1 (hpoint hc) d hd
    · exact continues_blank (by decide : TokenKind.decimal ≠ .whitespace) hd
  rw [← h]
  unfold first
  by_cases hc : c = '.'
  · simp [hblank, halpha, hdigit, hpoint hc, hpoint' hc]
  · simp [hblank, halpha, hdigit, hc]

/-- Where a token ends does not depend on more than the next character. -/
theorem first_of_replaces {kind : TokenKind} {c : Char} {cs rest rest' : List Char}
    (h : first c (cs ++ rest) = (kind, cs.length)) (hrest : Replaces kind rest rest') :
    first c (cs ++ rest') = (kind, cs.length) := by
  have hmatch := matches_first c (cs ++ rest)
  rw [h, List.take_left] at hmatch
  by_cases hkind : kind = .other
  · subst hkind
    obtain ⟨_, hcs, -⟩ := hmatch
    obtain ⟨rfl, rfl⟩ := List.cons.inj hcs
    exact first_other_of_replaces h hrest
  · refine first_of_matches hmatch hkind fun d hd => ?_
    rcases hrest d hd with hd | ⟨hblank, hne⟩
    · have hstop : d ∈ ((cs ++ rest).drop (first c (cs ++ rest)).2).head? := by
        rwa [h, List.drop_left]
      have := continues_first hstop
      rwa [h] at this
    · exact continues_blank hne hblank

/-! ## Scanning a part of a source -/

theorem run_le_length (p : Char → Bool) (cs : List Char) : run p cs ≤ cs.length :=
  (List.takeWhile_sublist p).length_le

/-- A token does not reach beyond the characters there are. -/
theorem first_le_length (c : Char) (cs : List Char) : (first c cs).2 ≤ cs.length := by
  rcases first_cases c cs with ⟨-, h⟩ | ⟨-, h⟩ | ⟨rest, hrest, h⟩ | ⟨-, h⟩ | h |
    ⟨hblank, halpha, hdigit, hpoint⟩
  · exact h ▸ run_le_length _ cs
  · exact h ▸ run_le_length _ cs
  · have hsplit : run Char.isDigit cs + (rest.length + 1) = cs.length := by
      rw [run, ← List.length_cons (a := '.'), ← hrest, ← List.length_append,
        List.takeWhile_append_dropWhile]
    have hle := run_le_length Char.isDigit rest
    rw [h]
    dsimp only
    omega
  · exact h ▸ run_le_length _ cs
  · exact h ▸ run_le_length _ cs
  · rw [(first_of_else cs hblank halpha hdigit hpoint).1]
    exact Nat.zero_le _

/-- The first token takes characters from the front, and the tokens behind it are those of the
rest. -/
theorem scanFrom_eq_cons_iff {start : Nat} {cs : List Char} {t : Token} {ts : List Token} :
    scanFrom start cs = t :: ts ↔
      ∃ c ds rest, cs = c :: (ds ++ rest) ∧ first c (ds ++ rest) = (t.kind, ds.length) ∧
        t.lexeme.toList = c :: ds ∧ t.span = ⟨start, start + String.utf8Len (c :: ds)⟩ ∧
        scanFrom t.span.stop rest = ts := by
  constructor
  · intro h
    cases cs with
    | nil =>
      rw [scanFrom] at h
      cases h
    | cons c cs =>
      rw [scanFrom_cons, String.utf8ByteSize_ofList] at h
      obtain ⟨rfl, rfl⟩ := List.cons.inj h
      have hlength : (cs.take (first c cs).2).length = (first c cs).2 :=
        List.length_take_of_le (first_le_length c cs)
      refine ⟨c, cs.take (first c cs).2, cs.drop (first c cs).2, ?_, ?_, String.toList_ofList, rfl,
        rfl⟩
      · rw [List.take_append_drop]
      · rw [List.take_append_drop, hlength]
  · rintro ⟨c, ds, rest, rfl, hfirst, hlexeme, hspan, rfl⟩
    obtain ⟨kind, span, lexeme⟩ := t
    obtain rfl : span = _ := hspan
    obtain rfl : lexeme = String.ofList (c :: ds) := by
      rw [← hlexeme, String.ofList_toList]
    rw [scanFrom_cons, hfirst, List.take_left, List.drop_left, String.utf8ByteSize_ofList]

/-- No character of a source is lost. -/
theorem chars_scanFrom (start : Nat) (cs : List Char) : chars (scanFrom start cs) = cs := by
  fun_induction scanFrom start cs with
  | case1 => rfl
  | case2 start c cs kind more _ lexeme stop ih =>
    rw [chars_cons, ih, String.toList_ofList, List.cons_append, List.take_append_drop]

/-- The tokens behind some of the tokens are found from where those end. -/
theorem scanFrom_drop {as bs : List Token} {start : Nat} {cs : List Char}
    (h : scanFrom start cs = as ++ bs) :
    scanFrom (start + String.utf8Len (chars as)) (chars bs) = bs := by
  induction as generalizing start cs with
  | nil =>
    rw [List.nil_append] at h
    rw [← h, chars_scanFrom]
    rfl
  | cons t as ih =>
    obtain ⟨c, ds, rest, -, -, hlexeme, hspan, hts⟩ := scanFrom_eq_cons_iff.1 h
    have := ih hts
    rwa [hspan, Nat.add_assoc, ← String.utf8Len_append, ← hlexeme, ← chars_cons] at this

/-- Tokens are found as well when the source ends behind them. -/
theorem scanFrom_take {as bs : List Token} {start : Nat} {cs : List Char}
    (h : scanFrom start cs = as ++ bs) : scanFrom start (chars as) = as := by
  induction as generalizing start cs with
  | nil => rw [chars_nil, scanFrom]
  | cons t as ih =>
    obtain ⟨c, ds, rest, -, hfirst, hlexeme, hspan, hts⟩ := scanFrom_eq_cons_iff.1 h
    have hrest : rest = chars (as ++ bs) := by
      rw [← chars_scanFrom t.span.stop rest, hts]
      rfl
    have hreplace : Replaces t.kind rest (chars as) := by
      intro d hd
      rw [hrest, chars_append, List.head?_append, Option.mem_def.1 hd]
      exact .inl rfl
    refine scanFrom_eq_cons_iff.2 ⟨c, ds, chars as, ?_, first_of_replaces hfirst hreplace, hlexeme,
      hspan, ih hts⟩
    rw [chars_cons, hlexeme, List.cons_append]

/-- Where scanning begins only moves the tokens. -/
theorem scanFrom_add (k start : Nat) (cs : List Char) :
    scanFrom (k + start) cs = (scanFrom start cs).map (shift k) := by
  fun_induction scanFrom start cs with
  | case1 => rw [scanFrom, List.map_nil]
  | case2 start c cs kind more hfirst lexeme stop ih =>
    rw [scanFrom_cons, hfirst, List.map_cons, ← ih, Nat.add_assoc]
    rfl

/-- The tokens of a piece of a source between two ends of tokens are those of the source there, at
the same distances from the start of the piece. -/
theorem map_shift_scan {source : String} {as ms bs : List Token}
    (h : scan source = as ++ ms ++ bs) :
    (scan (String.ofList (chars ms))).map (shift (String.utf8Len (chars as))) = ms := by
  have hfront : scanFrom 0 (chars (as ++ ms)) = as ++ ms := scanFrom_take h
  have hpiece := scanFrom_drop hfront
  rw [Nat.zero_add] at hpiece
  rw [scan, String.toList_ofList, ← scanFrom_add, Nat.add_zero, hpiece]

/-! ## Regions of tokens -/

theorem span_of_scan {source : String} {as bs : List Token} {t : Token}
    (h : scan source = as ++ t :: bs) :
    t.span = ⟨String.utf8Len (chars as), String.utf8Len (chars (as ++ [t]))⟩ := by
  obtain ⟨c, ds, rest, -, -, hlexeme, hspan, -⟩ := scanFrom_eq_cons_iff.1 (scanFrom_drop h)
  rw [hspan, chars_append, String.utf8Len_append, chars_cons, chars_nil, hlexeme, List.append_nil,
    Nat.zero_add]

/-- The text between the start of a token and the end of the same or a later one. -/
theorem slice?_scan {source : String} {as ms bs : List Token} {first last : Token}
    (h : scan source = as ++ ms ++ bs) (hfirst : ms.head? = some first)
    (hlast : ms.getLast? = some last) :
    (first.span.cover last.span).slice? source = some (String.ofList (chars ms)) := by
  obtain ⟨ms', rfl⟩ := List.head?_eq_some_iff.1 hfirst
  obtain ⟨ns, hns⟩ := List.getLast?_eq_some_iff.1 hlast
  have hfront : scan source = as ++ first :: (ms' ++ bs) := by simpa using h
  have hback : scan source = as ++ ns ++ last :: bs := by simpa [hns] using h
  have hstart := span_of_scan hfront
  have hstop := span_of_scan hback
  have hsource : source = String.ofList (chars as ++ chars (first :: ms') ++ chars bs) := by
    rw [← chars_append, ← chars_append, ← h, scan, chars_scanFrom, String.ofList_toList]
  rw [List.append_assoc, ← hns] at hstop
  have hspan : first.span.cover last.span =
      ⟨String.utf8Len (chars as), String.utf8Len (chars as ++ chars (first :: ms'))⟩ := by
    rw [Span.cover, hstart, hstop, ← chars_append]
  rw [hspan, hsource]
  exact Span.slice?_append _ _ _

theorem le_of_mem_scanFrom {start : Nat} {cs : List Char} {t : Token}
    (h : t ∈ scanFrom start cs) : start ≤ t.span.start ∧ t.span.start ≤ t.span.stop := by
  fun_induction scanFrom start cs with
  | case1 => cases h
  | case2 start c cs kind more _ lexeme stop ih =>
    rcases List.mem_cons.1 h with rfl | h
    · exact ⟨Nat.le_refl _, Nat.le_add_right _ _⟩
    · obtain ⟨hstart, hstop⟩ := ih h
      exact ⟨Nat.le_trans (Nat.le_add_right _ _) hstart, hstop⟩

/-- Tokens that lie one behind the other. -/
structure Ordered (ts : List Token) : Prop where
  behind : ts.Pairwise fun t u => t.span.stop ≤ u.span.start
  start_le_stop : ∀ t ∈ ts, t.span.start ≤ t.span.stop

theorem Ordered.sublist {ts us : List Token} (h : Ordered ts) (hus : us.Sublist ts) :
    Ordered us :=
  ⟨h.behind.sublist hus, fun t ht => h.start_le_stop t (hus.subset ht)⟩

/-- A token separates those before it from those behind it. -/
theorem Ordered.split {us vs : List Token} {t : Token} (h : Ordered (us ++ t :: vs)) :
    Ordered us ∧ Ordered vs ∧ (∀ u ∈ us, u.span.stop ≤ t.span.start) ∧
      ∀ v ∈ vs, t.span.stop ≤ v.span.start := by
  obtain ⟨-, hbehind, hbefore⟩ := List.pairwise_append.1 h.behind
  refine ⟨h.sublist (List.sublist_append_left _ _), h.sublist ?_, fun u hu => ?_, ?_⟩
  · exact (List.sublist_cons_self t vs).trans (List.sublist_append_right _ _)
  · exact hbefore u hu t (List.mem_cons_self ..)
  · exact (List.pairwise_cons.1 hbehind).1

theorem scan_ordered (source : String) : Ordered (scan source) := by
  refine ⟨?_, fun t ht => (le_of_mem_scanFrom ht).2⟩
  unfold scan
  generalize 0 = start
  fun_induction scanFrom start source.toList with
  | case1 => exact .nil
  | case2 start c cs kind more _ lexeme stop ih =>
    exact .cons (fun u hu => (le_of_mem_scanFrom hu).1) ih

end Token

end SumProduct
