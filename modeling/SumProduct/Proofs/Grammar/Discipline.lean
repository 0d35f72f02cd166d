/-
The way of a cursor over a source, whatever is asked of it. It always stands at an index of the
tokens, where no look-up of a token is out of range, it moves back only to return to a place, a
reader that goes back on failure leaves it where it was, and an item that was read reaches from the
first token ahead of the old index to the token before the new one.
-/
import SumProduct.Grammar.Walk
import SumProduct.Proofs.Grammar.Progress

namespace SumProduct

/-! ## Indices -/

namespace Cursor

theorem StandsAt.unique {source : String} {i j : Nat} {c : Cursor} (hi : c.StandsAt source i)
    (hj : c.StandsAt source j) : i = j :=
  hi.index_eq.trans hj.index_eq.symm

/-- A cursor at an index of the tokens of a source or behind it. -/
def StandsFrom (source : String) (i : Nat) (c : Cursor) : Prop := ∃ j, i ≤ j ∧ c.StandsAt source j

theorem StandsAt.standsFrom {source : String} {i : Nat} {c : Cursor} (h : c.StandsAt source i) :
    c.StandsFrom source i :=
  ⟨i, Nat.le_refl i, h⟩

/-- The next token leads on. -/
theorem StandsFrom.next {source : String} {i : Nat} (c : Cursor) (h : c.StandsFrom source i) :
    (Grammar.next c).cursor.StandsFrom source i := by
  obtain ⟨j, hij, hj⟩ := h
  obtain ⟨k, hjk, hk⟩ := hj.exists_next
  exact ⟨k, Nat.le_trans hij hjk, hk⟩

end Cursor

/-! ## Items between indices -/

/-- An item read between two indices of the tokens of a source. The second index is behind a token
that is no whitespace, and the region of the item reaches from the first token ahead of the first
index, whitespace not counted, to that one. -/
structure Item.ReadBetween (source : String) (i j : Nat) (x : Item) : Prop where
  lt : i < j
  region : ∃ first last,
    ((Token.scan source).drop i).find? (fun t => !t.isBlank) = some first ∧
      (Token.scan source)[j - 1]? = some last ∧ last.isBlank = false ∧
      x.span = ⟨first.span.start, last.span.stop⟩

/-- Items read one behind the other. -/
def Item.EachReadBetween (source : String) : Nat → Nat → List Item → Prop
  | i, j, [] => i = j
  | i, j, x :: xs => ∃ k, x.ReadBetween source i k ∧ EachReadBetween source k j xs

namespace Phrase

open Outcome

variable {source : String} {i : Nat} {c c' : Cursor}

theorem exists_readBetween {p : Phrase} {x : Item} (hc : c.StandsAt source i)
    (h : (p.read c).Gives x c') : ∃ j, c'.StandsAt source j ∧ x.ReadBetween source i j := by
  obtain ⟨first, us, last, hpeek, hrest, hlast, hstop, hspan⟩ := Grammar.span_of_read h
  have hdrop : (Token.scan source).drop i = us ++ last :: c'.rest := hc.rest.symm.trans hrest
  have hlength := congrArg List.length hdrop
  rw [List.length_drop, List.length_append, List.length_cons] at hlength
  refine ⟨i + (us.length + 1), ⟨?_, ?_, hstop.trans hc.stop⟩, ⟨by omega, first, last, ?_, ?_, hlast,
    hspan⟩⟩
  · have := hc.le_length
    omega
  · rw [← List.drop_drop, hdrop, List.append_cons]
    exact (List.drop_left' (by simp)).symm
  · rw [← hc.rest]
    exact hpeek
  · rw [← Nat.add_assoc, Nat.add_sub_cancel, ← List.getElem?_drop, hdrop,
      List.getElem?_append_right (Nat.le_refl _), Nat.sub_self]
    rfl

theorem readBetween_of_read {j : Nat} {p : Phrase} {x : Item} (hc : c.StandsAt source i)
    (hc' : c'.StandsAt source j) (h : (p.read c).Gives x c') : x.ReadBetween source i j := by
  obtain ⟨k, hk, hx⟩ := exists_readBetween hc h
  rwa [hc'.unique hk]

/-! ## Ways of asking -/

theorem gives_tryReadIf {accept : Item → Bool} {p : Phrase} {x : Item} :
    (p.tryReadIf accept c).Gives x c' ↔ (p.read c).Gives x c' ∧ accept x = true := by
  unfold tryReadIf
  cases p.read c with
  | fail e s => simp
  | ok y d h =>
    simp only [gives_ite, gives_ok]
    constructor
    · rintro ⟨ha, rfl, rfl⟩
      exact ⟨⟨rfl, rfl⟩, ha⟩
    · rintro ⟨⟨rfl, rfl⟩, ha⟩
      exact ⟨ha, rfl, rfl⟩

/-- What the first phrase that fits gives is given by one of the phrases. -/
theorem exists_read_of_firstOf {ps : List Phrase} {x : Item} (h : (firstOf ps c).Gives x c') :
    ∃ p : Phrase, (p.read c).Gives x c' := by
  fun_induction firstOf ps c with
  | case1 => exact absurd h not_gives_fail
  | case2 p c => exact ⟨p, gives_backTo.1 h⟩
  | case3 p ps c hne ih =>
    rcases gives_orElse.1 h with h | ⟨-, h⟩
    · exact ⟨p, gives_backTo.1 h⟩
    · exact ih h

theorem readEach_cons (p : Phrase) (ps : List Phrase) (c : Cursor) :
    readEach (p :: ps) c =
      match p.read c with
      | .fail e s => .fail e s
      | .ok x c' h =>
        ((readEach ps c').map (x :: ·)).weaken (Nat.succ_le_succ (Nat.le_of_lt h)) := rfl

/-- Phrases read in a row divide the way between them. -/
theorem eachReadBetween_of_readEach {j : Nat} {ps : List Phrase} {xs : List Item}
    (hc : c.StandsAt source i) (hc' : c'.StandsAt source j) (h : (readEach ps c).Gives xs c') :
    Item.EachReadBetween source i j xs := by
  induction ps generalizing c i xs with
  | nil =>
    obtain ⟨rfl, rfl⟩ := gives_ok.1 h
    exact hc.unique hc'
  | cons p ps ih =>
    rw [readEach_cons] at h
    split at h
    · exact absurd h not_gives_fail
    · rename_i x c₁ hlt hx
      obtain ⟨ys, hys, rfl⟩ := gives_map.1 (gives_weaken.1 h)
      obtain ⟨k, hk, hbetween⟩ := exists_readBetween hc ⟨hlt, hx⟩
      exact ⟨k, hbetween, ih hk hys⟩

section

variable {P : Cursor → Prop} (hnext : ∀ c, P c → P (Grammar.next c).cursor)

include hnext

theorem within_tryRead (p : Phrase) (hc : P c) : (p.tryRead c).Within P :=
  (Grammar.within_read hnext p hc).backTo hc

theorem within_tryReadIf (accept : Item → Bool) (p : Phrase) (hc : P c) :
    (p.tryReadIf accept c).Within P := by
  have h := Grammar.within_read hnext p hc
  unfold tryReadIf
  generalize p.read c = o at h
  cases o with
  | fail e s => exact hc
  | ok x c' hlt =>
    dsimp only
    split
    · exact h
    · exact hc

theorem within_readAll (p : Phrase) (hc : P c) : (p.readAll c).Within P := by
  have h := Grammar.within_read hnext p hc
  unfold readAll complete
  generalize p.read c = o at h
  cases o with
  | fail e s => exact h
  | ok x c' hlt =>
    dsimp only
    split
    · exact h
    · exact h

theorem within_readEach (ps : List Phrase) (hc : P c) : (readEach ps c).Within P := by
  induction ps generalizing c with
  | nil => exact hc
  | cons p ps ih =>
    have h := Grammar.within_read hnext p hc
    rw [readEach_cons]
    generalize p.read c = o at h
    cases o with
    | fail e s => exact h
    | ok x c' hlt => exact within_weaken.2 (within_map.2 (ih h))

theorem within_firstOf (ps : List Phrase) (hc : P c) : (firstOf ps c).Within P := by
  fun_induction firstOf ps c with
  | case1 => exact hc
  | case2 p c => exact within_tryRead hnext p hc
  | case3 p ps c hne ih => exact (within_tryRead hnext p hc).orElse (ih hc)

theorem within_chainAnswer (least : Precedence) (hc : P c) :
    (Walk.chainAnswer least c).Within P := by
  have h : ((Grammar.operand c).backTo c).Within P :=
    (Grammar.within_operandOr hnext hc (Grammar.within_paren hnext hc)).backTo hc
  unfold Walk.chainAnswer
  generalize (Grammar.operand c).backTo c = o at h
  cases o with
  | fail e s => exact h
  | ok lhs c' hlt =>
    rw [andThen_ok, within_weaken, within_map]
    exact Grammar.within_chain hnext lhs least h

end

end Phrase

/-! ## Moves -/

/-- Whether a move goes back to where it began when it fails. -/
def Move.GoesBack : Move → Prop
  | .tryRead _ | .tryReadIf .. | .operatorFrom _ | .readEach _ | .firstOf _ => True
  | _ => False

/-- What an answer tells of the way of the cursor from one index to another: the items in it were
read between the two. -/
def Answer.ReadBetween (source : String) (i j : Nat) : Answer → Prop
  | .item x => x.ReadBetween source i j
  | .items xs => Item.EachReadBetween source i j xs
  | _ => True

namespace Walk

open Outcome

/-- The walk behind some moves. -/
def after (w : Walk) (ms : List Move) : Walk := ms.foldl (fun w m => (w.step m).2) w

/-- The cursor and all saved places stand at indices of the tokens of a source. -/
structure Inside (source : String) (w : Walk) : Prop where
  cursor : ∃ i, w.cursor.StandsAt source i
  saved : ∀ place ∈ w.saved, ∃ i, place.2.StandsAt source i

/-- One move of a cursor from an index to another. -/
structure Disciplined (source : String) (w : Walk) (m : Move) (i j : Nat) : Prop where
  before : w.cursor.StandsAt source i
  behind : (w.step m).2.cursor.StandsAt source j
  inRange : w.cursor.LooksUp source i ∧ (w.step m).2.cursor.LooksUp source j
  forward : (∀ name, m ≠ .restore name) → i ≤ j
  failed : m.GoesBack → ∀ e, (w.step m).1 = .error e → (w.step m).2.cursor = w.cursor
  read : (w.step m).1.ReadBetween source i j

variable {source : String} {w : Walk} {i j : Nat}

/-- Every move but a return leads on or stays. -/
theorem standsFrom_step (hw : w.cursor.StandsAt source i) {m : Move}
    (hm : ∀ name, m ≠ .restore name) : (w.step m).2.cursor.StandsFrom source i := by
  have hc := hw.standsFrom
  have hnext : ∀ c : Cursor, c.StandsFrom source i →
      (Grammar.next c).cursor.StandsFrom source i := Cursor.StandsFrom.next
  cases m with
  | next => exact hnext _ hc
  | peek | endSpan | error _ | fatalError _ | save _ => exact hc
  | read p => exact Grammar.within_read hnext p hc
  | tryRead p => exact Phrase.within_tryRead hnext p hc
  | tryReadIf p accepted => exact Phrase.within_tryReadIf hnext _ p hc
  | readAll p => exact Phrase.within_readAll hnext p hc
  | operatorFrom least => exact Grammar.within_operatorIf hnext _ hc
  | readEach ps => exact (Phrase.within_readEach hnext ps hc).backTo hc
  | firstOf ps => exact Phrase.within_firstOf hnext ps hc
  | chain least => exact Phrase.within_chainAnswer hnext least hc
  | extend lhs least => exact Grammar.within_chain hnext lhs least hc
  | restore name => exact absurd rfl (hm name)

/-- Every move keeps the cursor and the saved places inside the source. -/
theorem Inside.step (h : w.Inside source) (m : Move) : (w.step m).2.Inside source := by
  obtain ⟨⟨i, hi⟩, hsaved⟩ := h
  have hcursor : (∀ name, m ≠ .restore name) → ∃ j, (w.step m).2.cursor.StandsAt source j := by
    intro hm
    obtain ⟨j, -, hj⟩ := standsFrom_step hi hm
    exact ⟨j, hj⟩
  cases m with
  | restore name =>
    refine ⟨?_, hsaved⟩
    cases hplace : w.saved.lookup name with
    | none =>
      refine ⟨i, ?_⟩
      simpa [Walk.step, hplace] using hi
    | some c =>
      obtain ⟨_, _, hsplit, -⟩ := List.lookup_eq_some_iff.1 hplace
      obtain ⟨j, hj⟩ := hsaved (name, c) (hsplit ▸ List.mem_append_right _ List.mem_cons_self)
      refine ⟨j, ?_⟩
      simpa [Walk.step, hplace] using hj
  | save name =>
    refine ⟨hcursor nofun, fun place hplace => ?_⟩
    rcases List.mem_cons.1 hplace with rfl | hplace
    · exact ⟨i, hi⟩
    · exact hsaved place hplace
  | _ => exact ⟨hcursor nofun, hsaved⟩

theorem inside_after (source : String) (ms : List Move) :
    ((start source).after ms).Inside source := by
  have h : (start source).Inside source := ⟨⟨0, Nat.zero_le _, rfl, rfl⟩, nofun⟩
  unfold after
  generalize start source = w at h
  induction ms generalizing w with
  | nil => exact h
  | cons m ms ih => exact ih _ (h.step m)

/-! ## Failures and items -/

section

variable {α : Type} {n : Nat} {o : Outcome α n} {answer : α → Answer}

/-- A reader that stays where it is when it fails makes for a move that goes back. -/
theorem cursor_follow (hanswer : ∀ v e, answer v ≠ .error e)
    (ho : ∀ e s, o = .fail e s → s = w.cursor) {e : SyntaxError}
    (h : (w.follow o answer).1 = .error e) : (w.follow o answer).2.cursor = w.cursor := by
  cases o with
  | ok v c hc => exact absurd h (hanswer v e)
  | fail e' s => exact ho e' s rfl

theorem readBetween_follow (hanswer : ∀ v c', o.Gives v c' → c'.StandsAt source j →
      (answer v).ReadBetween source i j) (hj : (w.follow o answer).2.cursor.StandsAt source j) :
    (w.follow o answer).1.ReadBetween source i j := by
  cases o with
  | ok v c hc => exact hanswer v c (gives_ok.2 ⟨rfl, rfl⟩) hj
  | fail e s => exact trivial

end

theorem eq_of_backTo_eq_fail {α : Type} {n : Nat} {o : Outcome α n} {c s : Cursor}
    {e : SyntaxError} (h : o.backTo c = .fail e s) : s = c := by
  cases o with
  | ok v d hd => cases h
  | fail e' s' =>
    cases h
    rfl

theorem eq_of_operatorIf_eq_fail {accept : Operator → Bool} {c s : Cursor} {e : SyntaxError}
    (h : Grammar.operatorIf accept c = .fail e s) : s = c := by
  unfold Grammar.operatorIf at h
  split at h
  · cases h
    rfl
  · split at h
    · cases h
    · cases h
      rfl

theorem eq_of_tryReadIf_eq_fail {accept : Item → Bool} {p : Phrase} {c s : Cursor}
    {e : SyntaxError} (h : p.tryReadIf accept c = .fail e s) : s = c := by
  unfold Phrase.tryReadIf at h
  split at h
  · cases h
    rfl
  · split at h
    · cases h
    · cases h
      rfl

theorem eq_of_firstOf_eq_fail {ps : List Phrase} {c s : Cursor} {e : SyntaxError}
    (h : Phrase.firstOf ps c = .fail e s) : s = c := by
  fun_induction Phrase.firstOf ps c with
  | case1 =>
    cases h
    rfl
  | case2 p c => exact eq_of_backTo_eq_fail h
  | case3 p ps c hne ih =>
    cases ho : p.tryRead c with
    | ok v d hd =>
      rw [ho] at h
      cases h
    | fail e' s' =>
      obtain rfl := eq_of_backTo_eq_fail ho
      rw [ho] at h
      unfold Outcome.orElse at h
      dsimp only at h
      split at h
      · cases h
        rfl
      · exact ih h

/-- A move that goes back leaves the cursor where it was when it fails. -/
theorem cursor_of_step_error {m : Move} (hm : m.GoesBack) {e : SyntaxError}
    (h : (w.step m).1 = .error e) : (w.step m).2.cursor = w.cursor := by
  cases m with
  | tryRead p => exact cursor_follow nofun (fun _ _ => eq_of_backTo_eq_fail) h
  | tryReadIf p accepted => exact cursor_follow nofun (fun _ _ => eq_of_tryReadIf_eq_fail) h
  | operatorFrom least => exact cursor_follow nofun (fun _ _ => eq_of_operatorIf_eq_fail) h
  | readEach ps => exact cursor_follow nofun (fun _ _ => eq_of_backTo_eq_fail) h
  | firstOf ps => exact cursor_follow nofun (fun _ _ => eq_of_firstOf_eq_fail) h
  | _ => exact hm.elim

/-- The items of an answer were read between the indices where the cursor stood. -/
theorem readBetween_step (hi : w.cursor.StandsAt source i) {m : Move}
    (hj : (w.step m).2.cursor.StandsAt source j) : (w.step m).1.ReadBetween source i j := by
  cases m with
  | read p =>
    exact readBetween_follow (fun x c' hx hc' => Phrase.readBetween_of_read hi hc' hx) hj
  | tryRead p =>
    exact readBetween_follow
      (fun x c' hx hc' => Phrase.readBetween_of_read hi hc' (gives_backTo.1 hx)) hj
  | tryReadIf p accepted =>
    exact readBetween_follow
      (fun x c' hx hc' => Phrase.readBetween_of_read hi hc' (Phrase.gives_tryReadIf.1 hx).1) hj
  | readAll p =>
    exact readBetween_follow
      (fun x c' hx hc' => Phrase.readBetween_of_read hi hc' (gives_complete.1 hx).1) hj
  | firstOf ps =>
    refine readBetween_follow (fun x c' hx hc' => ?_) hj
    obtain ⟨p, hp⟩ := Phrase.exists_read_of_firstOf hx
    exact Phrase.readBetween_of_read hi hc' hp
  | operatorFrom least =>
    refine readBetween_follow (fun op c' hop hc' => ?_) hj
    have hread : (Phrase.operator.read w.cursor).Gives (.operator op) c' :=
      gives_map.2 ⟨op, (Grammar.gives_operatorFrom.1 hop).1, rfl⟩
    exact Phrase.readBetween_of_read hi hc' hread
  | readEach ps =>
    exact readBetween_follow
      (fun xs c' hxs hc' => Phrase.eachReadBetween_of_readEach hi hc' (gives_backTo.1 hxs)) hj
  | next => exact readBetween_follow (fun _ _ _ _ => trivial) hj
  | chain least => exact readBetween_follow (fun _ _ _ _ => trivial) hj
  | extend lhs least => exact readBetween_follow (fun _ _ _ _ => trivial) hj
  | peek =>
    unfold Walk.step
    cases w.cursor.peek? <;> exact trivial
  | endSpan | error _ | fatalError _ | save _ | restore _ => exact trivial

/-! ## All walks -/

/-- Whatever moves were made, the next one takes the cursor from one index of the tokens to another,
back only by a return, and nowhere if it fails and goes back then. No look-up at either index is out
of range. The items of the answer reach from the first token ahead to the token that the cursor then
stands behind. -/
theorem exists_disciplined (source : String) (ms : List Move) (m : Move) :
    ∃ i j, ((start source).after ms).Disciplined source m i j := by
  have hinside := inside_after source ms
  obtain ⟨i, hi⟩ := hinside.cursor
  obtain ⟨j, hj⟩ := (hinside.step m).cursor
  refine ⟨i, j, hi, hj, ⟨hi.looksUp, hj.looksUp⟩, fun hm => ?_,
    fun hm e => cursor_of_step_error hm, readBetween_step hi hj⟩
  obtain ⟨k, hik, hk⟩ := standsFrom_step hi hm
  exact hk.unique hj ▸ hik

/-- In `x (y` the parenthesis behind the symbol is not closed, and the cursor stays before it. -/
theorem exists_disciplined_unclosed :
    (((start "x (y").after [.read .symbol]).step (.tryRead .paren)).1 =
        .error (.fatalAtSpan ⟨2, 3⟩ (.unclosedParen true)) ∧
      (((start "x (y").after [.read .symbol]).step (.tryRead .paren)).2.cursor =
        ((start "x (y").after [.read .symbol]).cursor := by
  have herror : (((start "x (y").after [.read .symbol]).step (.tryRead .paren)).1 =
      .error (.fatalAtSpan ⟨2, 3⟩ (.unclosedParen true)) := by decide +kernel
  obtain ⟨i, j, h⟩ := exists_disciplined "x (y" [.read .symbol] (.tryRead .paren)
  exact ⟨herror, h.failed trivial _ herror⟩

end Walk

end SumProduct
