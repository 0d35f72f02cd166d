/-
The patterns of tokens. Every token of a source matches the pattern of its kind, and characters
that match a pattern are one token wherever the character behind them cannot go on with it.
-/
import SumProduct.Token.Scan
import Mathlib.Data.List.TakeWhile

namespace SumProduct

namespace TokenKind

/-- The characters that form a token of a kind. -/
def Matches : TokenKind → List Char → Prop
  | whitespace, cs => cs ≠ [] ∧ ∀ c ∈ cs, Token.isBlankChar c = true
  | plus, cs => cs = ['+']
  | times, cs => cs = ['*']
  | openParen, cs => cs = ['(']
  | closeParen, cs => cs = [')']
  | name, cs => cs ≠ [] ∧ ∀ c ∈ cs, c.isAlpha = true
  | integer, cs => cs ≠ [] ∧ ∀ c ∈ cs, c.isDigit = true
  | decimal, cs => ∃ whole fraction, cs = whole ++ '.' :: fraction ∧
      (whole ≠ [] ∨ fraction ≠ []) ∧ (∀ c ∈ whole, c.isDigit = true) ∧
      ∀ c ∈ fraction, c.isDigit = true
  | other, cs => ∃ c, cs = [c] ∧ c ≠ '\n'

/-- The characters that, behind a token of a kind, would belong to a longer one. A single point is
not looked at here: it goes on with digits. -/
def Continues : TokenKind → Char → Bool
  | whitespace, c => Token.isBlankChar c
  | name, c => c.isAlpha
  | integer, c => c.isDigit || c == '.'
  | decimal, c => c.isDigit
  | plus, _ | times, _ | openParen, _ | closeParen, _ | other, _ => false

end TokenKind

namespace Token

/-! ## Classes of characters -/

theorem isAlpha_iff_le {c : Char} : c.isAlpha = true ↔ 'A' ≤ c ∧ c ≤ 'Z' ∨ 'a' ≤ c ∧ c ≤ 'z' := by
  have h : c.isAlpha = (decide ('A' ≤ c ∧ c ≤ 'Z') || decide ('a' ≤ c) && decide (c ≤ 'z')) := rfl
  rw [h, Bool.or_eq_true, Bool.and_eq_true, decide_eq_true_eq, decide_eq_true_eq,
    decide_eq_true_eq]

theorem isAlpha_iff {c : Char} :
    c.isAlpha = true ↔ 65 ≤ c.toNat ∧ c.toNat ≤ 90 ∨ 97 ≤ c.toNat ∧ c.toNat ≤ 122 :=
  isAlpha_iff_le

theorem isDigit_iff {c : Char} : c.isDigit = true ↔ 48 ≤ c.toNat ∧ c.toNat ≤ 57 :=
  Char.isDigit_iff_toNat

theorem isBlankChar_iff {c : Char} :
    isBlankChar c = true ↔ c.toNat = 32 ∨ c.toNat = 9 ∨ c.toNat = 13 ∨ c.toNat = 10 := by
  simp [isBlankChar, ← Char.toNat_inj, or_assoc]

theorem isBlankChar_of_isAlpha {c : Char} (h : c.isAlpha = true) : isBlankChar c = false := by
  rw [isAlpha_iff] at h
  rw [← Bool.not_eq_true, isBlankChar_iff]
  omega

theorem isBlankChar_of_isDigit {c : Char} (h : c.isDigit = true) : isBlankChar c = false := by
  rw [isDigit_iff] at h
  rw [← Bool.not_eq_true, isBlankChar_iff]
  omega

theorem isAlpha_of_isDigit {c : Char} (h : c.isDigit = true) : c.isAlpha = false := by
  rw [isDigit_iff] at h
  rw [← Bool.not_eq_true, isAlpha_iff]
  omega

/-! ## Runs -/

theorem run_append {p : Char → Bool} {cs rest : List Char} (hcs : ∀ c ∈ cs, p c = true)
    (hrest : ∀ d ∈ rest.head?, p d = false) : run p (cs ++ rest) = cs.length := by
  have hstop : rest.takeWhile p = [] := by
    cases rest with
    | nil => rfl
    | cons d rest => exact List.takeWhile_cons_of_neg (by simp [hrest d rfl])
  rw [run, List.takeWhile_append_of_pos hcs, hstop, List.append_nil]

theorem dropWhile_of_head? {p : Char → Bool} {rest : List Char}
    (h : ∀ d ∈ rest.head?, p d = false) : rest.dropWhile p = rest := by
  cases rest with
  | nil => rfl
  | cons d rest => exact List.dropWhile_cons_of_neg (by simp [h d rfl])

theorem take_run (p : Char → Bool) (cs : List Char) : cs.take (run p cs) = cs.takeWhile p := by
  have h : (cs.takeWhile p ++ cs.dropWhile p).take (run p cs) = cs.takeWhile p := List.take_left
  rwa [List.takeWhile_append_dropWhile] at h

theorem drop_run (p : Char → Bool) (cs : List Char) : cs.drop (run p cs) = cs.dropWhile p := by
  have h : (cs.takeWhile p ++ cs.dropWhile p).drop (run p cs) = cs.dropWhile p := List.drop_left
  rwa [List.takeWhile_append_dropWhile] at h

/-- A run is a front of characters that all satisfy the condition. -/
theorem mem_take_run {p : Char → Bool} {cs : List Char} {c : Char}
    (h : c ∈ cs.take (run p cs)) : p c = true := by
  rw [take_run] at h
  exact List.mem_takeWhile_imp h

/-- A character and the run behind it. -/
theorem forall_mem_cons_run {p : Char → Bool} {c : Char} (h : p c = true) (cs : List Char) :
    c :: cs.take (run p cs) ≠ [] ∧ ∀ d ∈ c :: cs.take (run p cs), p d = true := by
  refine ⟨List.cons_ne_nil _ _, fun d hd => ?_⟩
  rcases List.mem_cons.1 hd with rfl | hd
  · exact h
  · exact mem_take_run hd

/-! ## One token -/

theorem first_of_blank {c : Char} (h : isBlankChar c = true) (cs : List Char) :
    first c cs = (.whitespace, run isBlankChar cs) := by
  simp [first, h]

theorem first_of_alpha {c : Char} (h : c.isAlpha = true) (cs : List Char) :
    first c cs = (.name, run Char.isAlpha cs) := by
  simp [first, isBlankChar_of_isAlpha h, h]

theorem first_of_digits {c : Char} {cs : List Char} (h : c.isDigit = true)
    (hpoint : (cs.dropWhile Char.isDigit).head? ≠ some '.') :
    first c cs = (.integer, run Char.isDigit cs) := by
  unfold first
  rw [if_neg (by simp [isBlankChar_of_isDigit h]), if_neg (by simp [isAlpha_of_isDigit h]),
    if_pos h]
  dsimp only
  rw [drop_run]
  split
  · rename_i rest hrest
    exact absurd (congrArg List.head? hrest) hpoint
  · rfl

theorem first_of_digits_point {c : Char} {cs rest : List Char} (h : c.isDigit = true)
    (hpoint : cs.dropWhile Char.isDigit = '.' :: rest) :
    first c cs = (.decimal, run Char.isDigit cs + 1 + run Char.isDigit rest) := by
  unfold first
  rw [if_neg (by simp [isBlankChar_of_isDigit h]), if_neg (by simp [isAlpha_of_isDigit h]),
    if_pos h]
  dsimp only
  rw [drop_run, hpoint]
  rfl

theorem first_of_point {cs : List Char} (h : 0 < run Char.isDigit cs) :
    first '.' cs = (.decimal, run Char.isDigit cs) := by
  obtain ⟨n, hn⟩ := Nat.exists_eq_succ_of_ne_zero (Nat.ne_of_gt h)
  unfold first
  rw [if_neg (by decide), if_neg (by decide), if_neg (by decide), if_pos rfl, hn]
  rfl

/-- Behind any other character a token ends at once. -/
theorem first_of_else {c : Char} (cs : List Char) (hblank : isBlankChar c = false)
    (halpha : c.isAlpha = false) (hdigit : c.isDigit = false)
    (hpoint : c = '.' → run Char.isDigit cs = 0) :
    (first c cs).2 = 0 ∧ (first c cs).1.Matches [c] := by
  have hc : c ≠ '\n' := by
    rintro rfl
    revert hblank
    decide
  unfold first
  rw [if_neg (by simp [hblank]), if_neg (by simp [halpha]), if_neg (by simp [hdigit])]
  split
  · rename_i h
    rw [hpoint h]
    exact ⟨rfl, c, rfl, hc⟩
  split
  · rename_i h
    subst h
    exact ⟨rfl, rfl⟩
  split
  · rename_i h
    subst h
    exact ⟨rfl, rfl⟩
  split
  · rename_i h
    subst h
    exact ⟨rfl, rfl⟩
  split
  · rename_i h
    subst h
    exact ⟨rfl, rfl⟩
  · exact ⟨rfl, c, rfl, hc⟩

/-- A token of a kind is found where characters match the pattern of that kind and the next one
does not go on with them. -/
theorem first_of_matches {kind : TokenKind} {c : Char} {cs rest : List Char}
    (h : kind.Matches (c :: cs)) (hkind : kind ≠ .other)
    (hrest : ∀ d ∈ rest.head?, kind.Continues d = false) :
    first c (cs ++ rest) = (kind, cs.length) := by
  cases kind with
  | whitespace =>
    obtain ⟨hc, hcs⟩ := List.forall_mem_cons.1 h.2
    rw [first_of_blank hc, run_append hcs hrest]
  | name =>
    obtain ⟨hc, hcs⟩ := List.forall_mem_cons.1 h.2
    rw [first_of_alpha hc, run_append hcs hrest]
  | integer =>
    obtain ⟨hc, hcs⟩ := List.forall_mem_cons.1 h.2
    simp only [TokenKind.Continues, Bool.or_eq_false_iff] at hrest
    have hdigit : ∀ d ∈ rest.head?, d.isDigit = false := fun d hd => (hrest d hd).1
    have hpoint : ((cs ++ rest).dropWhile Char.isDigit).head? ≠ some '.' := by
      rw [List.dropWhile_append_of_pos hcs, dropWhile_of_head? hdigit]
      intro he
      have := (hrest '.' he).2
      revert this
      decide
    rw [first_of_digits hc hpoint, run_append hcs hdigit]
  | decimal =>
    obtain ⟨whole, fraction, he, hne, hwhole, hfraction⟩ := h
    cases whole with
    | nil =>
      obtain ⟨rfl, rfl⟩ := List.cons.inj he
      have hrun := run_append hfraction hrest
      have hpos := List.length_pos_iff.2 (hne.resolve_left (fun hn => hn rfl))
      rw [first_of_point (by omega), hrun]
    | cons d whole =>
      rw [List.cons_append] at he
      obtain ⟨rfl, rfl⟩ := List.cons.inj he
      obtain ⟨hc, hcs⟩ := List.forall_mem_cons.1 hwhole
      have hpoint : ('.' :: (fraction ++ rest)).dropWhile Char.isDigit =
          '.' :: (fraction ++ rest) := List.dropWhile_cons_of_neg (by decide)
      have hstop : ∀ d ∈ ('.' :: (fraction ++ rest)).head?, d.isDigit = false := by
        rintro _ ⟨⟩
        decide
      rw [List.append_assoc, List.cons_append,
        first_of_digits_point hc ((List.dropWhile_append_of_pos hcs).trans hpoint),
        run_append hcs hstop, run_append hfraction hrest, List.length_append, List.length_cons,
        Nat.add_assoc, Nat.add_comm 1]
  | plus | times | openParen | closeParen =>
    cases h
    rfl
  | other => exact absurd rfl hkind

/-- The first token matches the pattern of its kind. -/
theorem matches_first (c : Char) (cs : List Char) :
    (first c cs).1.Matches (c :: cs.take (first c cs).2) := by
  by_cases hblank : isBlankChar c = true
  · rw [first_of_blank hblank]
    exact forall_mem_cons_run hblank cs
  by_cases halpha : c.isAlpha = true
  · rw [first_of_alpha halpha]
    exact forall_mem_cons_run halpha cs
  by_cases hdigit : c.isDigit = true
  · by_cases hpoint : (cs.dropWhile Char.isDigit).head? = some '.'
    · obtain ⟨rest, hrest⟩ := List.head?_eq_some_iff.1 hpoint
      obtain ⟨hne, hwhole⟩ := forall_mem_cons_run hdigit cs
      rw [first_of_digits_point hdigit hrest]
      refine ⟨c :: cs.take (run Char.isDigit cs), rest.take (run Char.isDigit rest), ?_,
        .inl hne, hwhole, fun d => mem_take_run⟩
      rw [Nat.add_assoc, List.take_add, drop_run, hrest, Nat.add_comm 1, List.take_succ_cons]
      rfl
    · rw [first_of_digits hdigit hpoint]
      exact forall_mem_cons_run hdigit cs
  by_cases hpoint : c = '.' ∧ 0 < run Char.isDigit cs
  · obtain ⟨rfl, hpos⟩ := hpoint
    rw [first_of_point hpos]
    refine ⟨[], cs.take (run Char.isDigit cs), rfl, .inr ?_, nofun, fun d => mem_take_run⟩
    rw [take_run]
    exact List.length_pos_iff.1 hpos
  · have hrun : c = '.' → run Char.isDigit cs = 0 := by
      intro h
      by_contra hne
      exact hpoint ⟨h, Nat.pos_of_ne_zero hne⟩
    obtain ⟨hmore, hmatch⟩ := first_of_else cs (Bool.eq_false_iff.2 hblank)
      (Bool.eq_false_iff.2 halpha) (Bool.eq_false_iff.2 hdigit) hrun
    rw [hmore]
    exact hmatch

/-! ## All tokens -/

theorem scanFrom_cons (start : Nat) (c : Char) (cs : List Char) :
    scanFrom start (c :: cs) =
      ⟨(first c cs).1, ⟨start, start + (String.ofList (c :: cs.take (first c cs).2)).utf8ByteSize⟩,
          String.ofList (c :: cs.take (first c cs).2)⟩ ::
        scanFrom (start + (String.ofList (c :: cs.take (first c cs).2)).utf8ByteSize)
          (cs.drop (first c cs).2) := by
  rw [scanFrom]

/-- Every token of a source matches the pattern of its kind. -/
theorem matches_of_mem_scanFrom {start : Nat} {cs : List Char} {t : Token}
    (h : t ∈ scanFrom start cs) : t.kind.Matches t.lexeme.toList := by
  fun_induction scanFrom start cs with
  | case1 => cases h
  | case2 start c cs kind more hfirst lexeme stop ih =>
    rcases List.mem_cons.1 h with rfl | h
    · have := matches_first c cs
      rw [hfirst] at this
      rw [String.toList_ofList]
      exact this
    · exact ih h

/-- Characters that match a pattern are one token in front of others that do not go on with
them. -/
theorem scanFrom_append {kind : TokenKind} {cs rest : List Char} (h : kind.Matches cs)
    (hkind : kind ≠ .other) (hrest : ∀ d ∈ rest.head?, kind.Continues d = false) (start : Nat) :
    ∃ span stop, scanFrom start (cs ++ rest) =
      ⟨kind, span, String.ofList cs⟩ :: scanFrom stop rest := by
  cases cs with
  | nil => cases kind <;> simp [TokenKind.Matches] at h
  | cons c cs =>
    rw [List.cons_append, scanFrom_cons, first_of_matches h hkind hrest, List.take_left,
      List.drop_left]
    exact ⟨_, _, rfl⟩

end Token

end SumProduct
