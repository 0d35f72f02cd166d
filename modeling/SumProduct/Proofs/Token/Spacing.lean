/-
Whitespace put between the tokens of a source. A blank ends every token but whitespace, and
whitespace has no say in the others, so the tokens that are left without it stay the same.
-/
import SumProduct.Proofs.Token.Boundary

namespace SumProduct.Token

/-! ## Signs -/

/-- A token without its region. -/
def sign (t : Token) : TokenKind × String := (t.kind, t.lexeme)

/-- The signs of the tokens that are no whitespace. -/
def signs (ts : List Token) : List (TokenKind × String) :=
  (ts.filter fun t => !t.isBlank).map sign

theorem signs_cons_blank {t : Token} (h : t.isBlank = true) (ts : List Token) :
    signs (t :: ts) = signs ts := by
  unfold signs
  rw [List.filter_cons_of_neg (by simp [h])]

theorem signs_cons {t : Token} (h : t.isBlank = false) (ts : List Token) :
    signs (t :: ts) = t.sign :: signs ts := by
  unfold signs
  rw [List.filter_cons_of_pos (by simp [h]), List.map_cons]

/-- Where characters begin does not matter to the signs of their tokens. -/
theorem signs_scanFrom (start : Nat) (cs : List Char) :
    signs (scanFrom start cs) = signs (scanFrom 0 cs) := by
  rw [← Nat.add_zero start, scanFrom_add, signs, List.filter_map, List.map_map]
  rfl

/-- A run of blanks in front of characters leaves no sign. -/
theorem signs_of_blank {c : Char} (h : isBlankChar c = true) (cs : List Char) :
    signs (scanFrom 0 (c :: cs)) = signs (scanFrom 0 (cs.dropWhile isBlankChar)) := by
  rw [scanFrom_cons, first_of_blank h, drop_run, signs_cons_blank rfl, signs_scanFrom]

/-- A blank in front of characters leaves no sign. -/
theorem signs_blank {c : Char} (h : isBlankChar c = true) (cs : List Char) :
    signs (scanFrom 0 (c :: cs)) = signs (scanFrom 0 cs) := by
  rw [signs_of_blank h]
  cases cs with
  | nil => rfl
  | cons d cs =>
    by_cases hd : isBlankChar d = true
    · rw [List.dropWhile_cons_of_pos hd, signs_of_blank hd]
    · rw [List.dropWhile_cons_of_neg hd]

theorem signs_blanks {cs : List Char} (h : ∀ c ∈ cs, isBlankChar c = true) (ds : List Char) :
    signs (scanFrom 0 (cs ++ ds)) = signs (scanFrom 0 ds) := by
  induction cs with
  | nil => rfl
  | cons c cs ih =>
    obtain ⟨hc, hcs⟩ := List.forall_mem_cons.1 h
    rw [List.cons_append, signs_blank hc, ih hcs]

/-! ## Spacing -/

/-- The characters of tokens with any blanks before, between and behind them. -/
inductive Spaced : List Token → List Char → Prop where
  | nil : Spaced [] []
  | blank {c : Char} {ts : List Token} {cs : List Char} :
    isBlankChar c = true → Spaced ts cs → Spaced ts (c :: cs)
  | token {ts : List Token} {cs : List Char} (t : Token) :
    Spaced ts cs → Spaced (t :: ts) (t.lexeme.toList ++ cs)

/-- Spaced tokens start as the tokens themselves do, or with a blank. -/
theorem Spaced.head {ts : List Token} {cs : List Char} (h : Spaced ts cs) {d : Char}
    (hd : d ∈ cs.head?) : d ∈ (chars ts).head? ∨ isBlankChar d = true := by
  induction h with
  | nil => cases hd
  | blank hc _ _ =>
    cases hd
    exact .inr hc
  | token t _ ih =>
    rw [chars_cons]
    cases hl : t.lexeme.toList with
    | nil =>
      rw [hl] at hd
      exact ih hd
    | cons c l =>
      rw [hl] at hd
      exact .inl hd

/-- Blanks between tokens change none of the others. -/
theorem Spaced.signs_eq {ts : List Token} {cs : List Char} (h : Spaced ts cs) :
    ∀ {start : Nat} {ds : List Char}, scanFrom start ds = ts →
      signs (scanFrom 0 cs) = signs ts := by
  induction h with
  | nil =>
    intro _ _ _
    rw [scanFrom]
  | blank hc _ ih =>
    intro start ds hds
    rw [signs_blank hc, ih hds]
  | @token ts cs t h ih =>
    intro start ds hds
    obtain ⟨c, es, rest, -, hfirst, hlexeme, -, hts⟩ := scanFrom_eq_cons_iff.1 hds
    have hmatch := matches_first c (es ++ rest)
    rw [hfirst, List.take_left, ← hlexeme] at hmatch
    by_cases hkind : t.kind = .whitespace
    · rw [hkind] at hmatch
      rw [signs_blanks hmatch.2, signs_cons_blank (by simp [isBlank, hkind]), ih hts]
    · have hrest : rest = chars ts := by
        rw [← chars_scanFrom t.span.stop rest, hts]
      have hreplace : Replaces t.kind rest cs := by
        intro d hd
        rw [hrest]
        exact (h.head hd).imp_right fun hblank => ⟨hblank, hkind⟩
      -- the token is found again, and behind it the same signs
      rw [hlexeme, List.cons_append, scanFrom_cons, first_of_replaces hfirst hreplace,
        List.take_left, List.drop_left, signs_cons (by simp [isBlank, hkind]), signs_scanFrom,
        ih hts, signs_cons (by simp [isBlank, hkind]), sign, sign, ← hlexeme, String.ofList_toList]

/-- Whitespace put between the tokens of a source leaves its other tokens as they are. -/
theorem signs_scan_of_spaced {source source' : String}
    (h : Spaced (scan source) source'.toList) : signs (scan source') = signs (scan source) :=
  h.signs_eq rfl

end SumProduct.Token
