/-
Longest matches. A scanner that takes the longest match of any pattern at every place, and reports
an error where there is none, has no choice: it finds the tokens of the source and never an error.
Their regions lie side by side and leave nothing of the source out.
-/
import SumProduct.Proofs.Token.Boundary

namespace SumProduct

/-! ## Patterns against each other -/

namespace TokenKind

/-- Of two patterns that match equally many characters, the one of higher priority counts. Only the
pattern for any character yields to the others. -/
def priority : TokenKind → Nat
  | other => 0
  | _ => 1

/-- Characters at the front of a text that form its first token: they match the pattern of the kind,
no pattern matches more of the text, and none of equal priority matches as much. -/
structure Longest (kind : TokenKind) (lexeme rest : List Char) : Prop where
  matched : kind.Matches lexeme
  longest : ∀ (k : TokenKind) (cs : List Char), cs <+: lexeme ++ rest → k.Matches cs →
    cs.length ≤ lexeme.length
  preferred : ∀ k : TokenKind, k ≠ kind → k.Matches lexeme → k.priority < kind.priority

theorem ne_nil_of_matches {kind : TokenKind} {cs : List Char} (h : kind.Matches cs) : cs ≠ [] := by
  cases kind with
  | whitespace | name | integer => exact h.1
  | plus | times | openParen | closeParen =>
    obtain rfl : cs = _ := h
    exact List.cons_ne_nil _ _
  | decimal =>
    obtain ⟨whole, fraction, rfl, -⟩ := h
    simp
  | other =>
    obtain ⟨c, rfl, -⟩ := h
    exact List.cons_ne_nil _ _

/-- A text leaves no choice for its first token. -/
theorem Longest.unique {kind kind' : TokenKind} {lexeme lexeme' rest rest' : List Char}
    (h : kind.Longest lexeme rest) (h' : kind'.Longest lexeme' rest')
    (htext : lexeme ++ rest = lexeme' ++ rest') :
    kind = kind' ∧ lexeme = lexeme' ∧ rest = rest' := by
  have hle : lexeme.length ≤ lexeme'.length :=
    h'.longest kind lexeme (htext ▸ List.prefix_append lexeme rest) h.matched
  have hge : lexeme'.length ≤ lexeme.length :=
    h.longest kind' lexeme' (htext ▸ List.prefix_append lexeme' rest') h'.matched
  obtain ⟨rfl, rfl⟩ := List.append_inj htext (Nat.le_antisymm hle hge)
  refine ⟨?_, rfl, rfl⟩
  by_contra hne
  have hlt := h.preferred kind' (Ne.symm hne) h'.matched
  have hgt := h'.preferred kind hne h.matched
  omega

end TokenKind

namespace Token

/-- A run is the longest front of characters that satisfy the condition. -/
theorem length_le_run {p : Char → Bool} {ds cs : List Char} (hds : ∀ d ∈ ds, p d = true)
    (h : ds <+: cs) : ds.length ≤ run p cs := by
  obtain ⟨rest, rfl⟩ := h
  rw [run, List.takeWhile_append_of_pos hds, List.length_append]
  exact Nat.le_add_right _ _

/-- No pattern matches more characters than the first token has. -/
theorem length_le_first {kind : TokenKind} {c : Char} {ds cs : List Char}
    (h : kind.Matches (c :: ds)) (hds : ds <+: cs) : ds.length ≤ (first c cs).2 := by
  cases kind with
  | whitespace =>
    obtain ⟨hc, hall⟩ := List.forall_mem_cons.1 h.2
    rw [first_of_blank hc]
    exact length_le_run hall hds
  | name =>
    obtain ⟨hc, hall⟩ := List.forall_mem_cons.1 h.2
    rw [first_of_alpha hc]
    exact length_le_run hall hds
  | integer =>
    -- digits may go on with a point, and the token is longer then
    obtain ⟨hc, hall⟩ := List.forall_mem_cons.1 h.2
    have hrun := length_le_run hall hds
    by_cases hpoint : (cs.dropWhile Char.isDigit).head? = some '.'
    · obtain ⟨rest, hrest⟩ := List.head?_eq_some_iff.1 hpoint
      rw [first_of_digits_point hc hrest]
      dsimp only
      omega
    · rw [first_of_digits hc hpoint]
      exact hrun
  | decimal =>
    obtain ⟨whole, fraction, he, hne, hwhole, hfraction⟩ := h
    obtain ⟨rest, rfl⟩ := hds
    cases whole with
    | nil =>
      obtain ⟨rfl, rfl⟩ := List.cons.inj he
      have hrun := length_le_run hfraction (List.prefix_append ds rest)
      have hpos := List.length_pos_iff.2 (hne.resolve_left (fun hn => hn rfl))
      rw [first_of_point (by omega)]
      exact hrun
    | cons d whole =>
      rw [List.cons_append] at he
      obtain ⟨rfl, rfl⟩ := List.cons.inj he
      obtain ⟨hc, hcs⟩ := List.forall_mem_cons.1 hwhole
      have hpoint : ('.' :: (fraction ++ rest)).dropWhile Char.isDigit =
          '.' :: (fraction ++ rest) := List.dropWhile_cons_of_neg (by decide)
      have hstop : ∀ d ∈ ('.' :: (fraction ++ rest)).head?, d.isDigit = false := by
        rintro _ ⟨⟩
        decide
      have hrun := length_le_run hfraction (List.prefix_append fraction rest)
      rw [List.append_assoc, List.cons_append,
        first_of_digits_point hc ((List.dropWhile_append_of_pos hcs).trans hpoint),
        run_append hcs hstop, List.length_append, List.length_cons]
      dsimp only
      omega
  | plus | times | openParen | closeParen =>
    obtain ⟨-, rfl⟩ := List.cons.inj h
    exact Nat.zero_le _
  | other =>
    obtain ⟨d, he, -⟩ := h
    obtain ⟨-, rfl⟩ := List.cons.inj he
    exact Nat.zero_le _

/-- The first token of a text is the longest match of any pattern. -/
theorem longest_first (c : Char) (cs : List Char) :
    (first c cs).1.Longest (c :: cs.take (first c cs).2) (cs.drop (first c cs).2) := by
  have hlength : (cs.take (first c cs).2).length = (first c cs).2 :=
    List.length_take_of_le (first_le_length c cs)
  refine ⟨matches_first c cs, ?_, ?_⟩
  · intro k ds hprefix hk
    rw [List.cons_append, List.take_append_drop] at hprefix
    cases ds with
    | nil => exact Nat.zero_le _
    | cons d ds =>
      obtain ⟨rfl, htail⟩ := List.cons_prefix_cons.1 hprefix
      rw [List.length_cons, List.length_cons, hlength]
      exact Nat.succ_le_succ (length_le_first hk htail)
  · -- in front of nothing the token is the same, so a second pattern can only be the yielding one
    intro k hne hk
    have hfirst : first c (cs.take (first c cs).2 ++ []) =
        ((first c cs).1, (cs.take (first c cs).2).length) := by
      have hwhole : first c (cs.take (first c cs).2 ++ cs.drop (first c cs).2) =
          ((first c cs).1, (cs.take (first c cs).2).length) := by
        rw [List.take_append_drop, hlength]
      exact first_of_replaces hwhole fun _ hd => nomatch hd
    by_cases hother : k = .other
    · subst hother
      revert hne
      cases (first c cs).1 <;> simp [TokenKind.priority]
    · have hk' : first c (cs.take (first c cs).2 ++ []) = (k, (cs.take (first c cs).2).length) :=
        first_of_matches hk hother fun _ hd => nomatch hd
      exact absurd (congrArg Prod.fst (hk'.symm.trans hfirst)) hne

/-! ## Scanning by longest matches -/

/-- What a scanner makes of the characters from a byte on, if it takes the longest match everywhere
and reports an error over some characters where no pattern matches. -/
inductive Munched : Nat → List Char → List (Except Span Token) → Prop where
  | nil (start : Nat) : Munched start [] []
  | token {kind : TokenKind} {lexeme rest : List Char} {items : List (Except Span Token)}
    (start : Nat) :
    kind.Longest lexeme rest → Munched (start + String.utf8Len lexeme) rest items →
    Munched start (lexeme ++ rest)
      (.ok ⟨kind, ⟨start, start + String.utf8Len lexeme⟩, String.ofList lexeme⟩ :: items)
  | error {skipped rest : List Char} {items : List (Except Span Token)} (start : Nat) :
    skipped ≠ [] → (∀ (k : TokenKind) (cs : List Char), cs <+: skipped ++ rest → ¬ k.Matches cs) →
    Munched (start + String.utf8Len skipped) rest items →
    Munched start (skipped ++ rest) (.error ⟨start, start + String.utf8Len skipped⟩ :: items)

/-- Longest matches are found everywhere, and they are the tokens. -/
theorem munched_iff {start : Nat} {cs : List Char} {items : List (Except Span Token)} :
    Munched start cs items ↔ items = (scanFrom start cs).map .ok := by
  constructor
  · intro h
    induction h with
    | nil start => rw [scanFrom, List.map_nil]
    | @token kind lexeme rest items start hlongest _ ih =>
      have hne := TokenKind.ne_nil_of_matches hlongest.matched
      obtain ⟨c, ds, rfl⟩ := List.exists_cons_of_ne_nil hne
      have htext : c :: ds ++ rest = c :: (ds ++ rest).take (first c (ds ++ rest)).2 ++
          (ds ++ rest).drop (first c (ds ++ rest)).2 := by
        rw [List.cons_append, List.cons_append, List.take_append_drop]
      obtain ⟨hkind, hlexeme, hrest⟩ := hlongest.unique (longest_first c (ds ++ rest)) htext
      rw [List.cons_append, scanFrom_cons, ← hkind, ← hlexeme, ← hrest, ih, List.map_cons,
        String.utf8ByteSize_ofList]
    | @error skipped rest items start hne hnone _ _ =>
      -- the first token would be a match
      obtain ⟨c, ds, rfl⟩ := List.exists_cons_of_ne_nil hne
      have hprefix : c :: (ds ++ rest).take (first c (ds ++ rest)).2 <+: c :: ds ++ rest :=
        List.cons_prefix_cons.2 ⟨rfl, List.take_prefix _ _⟩
      exact absurd (matches_first c (ds ++ rest)) (hnone _ _ hprefix)
  · rintro rfl
    fun_induction scanFrom start cs with
    | case1 => exact .nil _
    | case2 start c cs kind more hfirst lexeme stop ih =>
      have hlongest := longest_first c cs
      rw [hfirst] at hlongest
      have hstop : stop = start + String.utf8Len (c :: cs.take more) :=
        congrArg (start + ·) (String.utf8ByteSize_ofList _)
      have htext : c :: cs = c :: cs.take more ++ cs.drop more := by
        rw [List.cons_append, List.take_append_drop]
      rw [htext, List.map_cons, hstop]
      exact .token start hlongest (hstop ▸ ih)

/-! ## Regions side by side -/

/-- Regions that lie side by side from one byte to another, none of them empty. -/
def Tile : List Span → Nat → Nat → Prop
  | [], start, stop => start = stop
  | s :: spans, start, stop => s.start = start ∧ start < s.stop ∧ Tile spans s.stop stop

theorem utf8Len_pos (c : Char) (cs : List Char) : 0 < String.utf8Len (c :: cs) := by
  rw [String.utf8Len_cons]
  exact Nat.add_pos_right _ c.utf8Size_pos

theorem tile_scanFrom (start : Nat) (cs : List Char) :
    Tile ((scanFrom start cs).map Token.span) start (start + String.utf8Len cs) := by
  fun_induction scanFrom start cs with
  | case1 => exact rfl
  | case2 start c cs kind more hfirst lexeme stop ih =>
    have hstop : stop = start + String.utf8Len (c :: cs.take more) :=
      congrArg (start + ·) (String.utf8ByteSize_ofList _)
    have hlen : start + String.utf8Len (c :: cs) = stop + String.utf8Len (cs.drop more) := by
      rw [hstop, Nat.add_assoc, ← String.utf8Len_append, List.cons_append, List.take_append_drop]
    refine ⟨rfl, ?_, ?_⟩
    · have := utf8Len_pos c (cs.take more)
      show start < stop
      omega
    · rw [hlen]
      exact ih

/-- The tokens of a source are a partition of it by longest matches. Their regions are not empty and
lie side by side from the first byte to the last, each between characters and with the lexeme as its
text. Each token is the longest match of any pattern in the text ahead of it, and whoever scans by
longest matches finds these tokens and no error. -/
theorem scan_partitions_by_longest_match (source : String) :
    Tile ((scan source).map Token.span) 0 source.utf8ByteSize ∧
      (∀ t ∈ scan source, t.span.slice? source = some t.lexeme) ∧
      (∀ before t after, scan source = before ++ t :: after →
        t.kind.Longest t.lexeme.toList (chars after)) ∧
      ∀ items, Munched 0 source.toList items ↔ items = (scan source).map .ok := by
  refine ⟨?_, ?_, ?_, fun items => munched_iff⟩
  · have h := tile_scanFrom 0 source.toList
    rwa [Nat.zero_add, ← String.utf8ByteSize_ofList, String.ofList_toList] at h
  · intro t ht
    obtain ⟨before, after, hscan⟩ := List.append_of_mem ht
    have hpiece : scan source = before ++ [t] ++ after := by
      rw [hscan, List.append_assoc, List.singleton_append]
    have hslice := slice?_scan hpiece rfl rfl
    rwa [chars_cons, chars_nil, List.append_nil, String.ofList_toList] at hslice
  · intro before t after hscan
    obtain ⟨c, ds, rest, -, hfirst, hlexeme, -, hts⟩ := scanFrom_eq_cons_iff.1 (scanFrom_drop hscan)
    have hrest : rest = chars after := by
      rw [← chars_scanFrom t.span.stop rest, hts]
    have hlongest := longest_first c (ds ++ rest)
    rwa [hfirst, List.take_left, List.drop_left, ← hlexeme, hrest] at hlongest

/-- In `1..2` the first point belongs to the digits before it and the second to the digit behind. -/
theorem scan_partitions_by_longest_match_points :
    Munched 0 "1..2".toList [.ok ⟨.decimal, ⟨0, 2⟩, "1."⟩, .ok ⟨.decimal, ⟨2, 4⟩, ".2"⟩] :=
  ((scan_partitions_by_longest_match "1..2").2.2.2 _).2 (by decide +kernel)

end Token

end SumProduct
