/-
What the records of a simplification tell of its steps. A simplification is a sequence of calls of
rules, and its journal is what these write one after the other. A call takes one step at most and
records it under the name of its rule, unless a combining rule drops a zero term or a factor one. So
the records name the steps in their order, and only steps of this kind are left out.
-/
import SumProduct.Simplify.Basic
import Mathlib.Tactic.SplitIfs

namespace SumProduct

/-! ## Steps in texts -/

/-- How the text of a record begins that tells of a step. -/
def Step.heading : Step → String
  | addZero => "add_zero: "
  | multiplyZero => "multiply_zero: "
  | multiplyOne => "multiply_one: "
  | foldSum => "fold_sum: "
  | foldProduct => "fold_product: "
  | substitute => "substitute: "

/-- The step that a text tells of by its beginning. -/
def Step.ofText? (text : String) : Option Step :=
  [addZero, multiplyZero, multiplyOne, foldSum, foldProduct, substitute].find? fun s =>
    s.heading.toList.isPrefixOf text.toList

theorem Step.ofText?_heading (s : Step) (rest : String) :
    Step.ofText? (s.heading ++ rest) = some s := by
  cases s <;> simp [ofText?, heading, List.isPrefixOf]

namespace Record

/-- The step that a record tells of. The rules of derivatives are no steps, nor are the start and
the end of an operation. -/
def step? : Record → Option Step
  | addZero .. => some .addZero
  | multiplyZero .. => some .multiplyZero
  | multiplyOne .. => some .multiplyOne
  | foldSum .. => some .foldSum
  | foldProduct .. => some .foldProduct
  | substitute .. => some .substitute
  | _ => none

/-- The text of a record tells its step, and no other text can be taken for one that does. -/
theorem ofText?_message (r : Record) : Step.ofText? r.message = r.step? := by
  unfold message
  cases r with
  | addZero l r e =>
    dsimp only
    rw [String.append_assoc, String.append_assoc]
    exact Step.ofText?_heading .addZero _
  | multiplyZero l r =>
    dsimp only
    rw [String.append_assoc]
    exact Step.ofText?_heading .multiplyZero _
  | multiplyOne l r e =>
    dsimp only
    rw [String.append_assoc, String.append_assoc]
    exact Step.ofText?_heading .multiplyOne _
  | foldSum l r n => exact Step.ofText?_heading .foldSum _
  | foldProduct l r n => exact Step.ofText?_heading .foldProduct _
  | substitute x v =>
    dsimp only
    rw [String.append_assoc, String.append_assoc]
    exact Step.ofText?_heading .substitute _
  | _ => simp [step?, Step.ofText?, Step.heading, List.isPrefixOf]

/-- Records of steps are not those of the start and the end of an operation. -/
theorem level_of_step? {r : Record} {s : Step} (h : r.step? = some s) : r.level = .trace := by
  cases r with
  | differentiating f x => cases h
  | simplifying e n => cases h
  | simplified e => cases h
  | _ => rfl

end Record

/-- Whether a step drops a zero term or a factor one. -/
def Step.isDrop : Step → Bool
  | addZero | multiplyOne => true
  | _ => false

theorem Step.isDrop_iff {s : Step} : s.isDrop = true ↔ s = .addZero ∨ s = .multiplyOne := by
  cases s <;> decide

/-! ## Calls of rules -/

namespace Rule

/-- What a rule writes that need not apply. -/
def written {α : Type} : Option (α × Journal) → Journal
  | some (_, j) => j
  | none => .empty

/-- A rule and what it is called with. -/
inductive Call where
  | addZero (l r : Expr)
  | multiplyZero (l r : Expr)
  | multiplyOne (l r : Expr)
  | substitute (x : Symbol)
  | combineSum (l r : Expr)
  | combineProduct (l r : Expr)

namespace Call

def isCombining : Call → Bool
  | combineSum .. | combineProduct .. => true
  | _ => false

/-- What a call writes. -/
def journal (b : Bindings) : Call → Journal
  | addZero l r => written (Rule.addZero l r)
  | multiplyZero l r => written (Rule.multiplyZero l r)
  | multiplyOne l r => written (Rule.multiplyOne l r)
  | substitute x => written (Rule.substitute b x)
  | combineSum l r => (Rule.combineSum l r).2
  | combineProduct l r => (Rule.combineProduct l r).2

/-- What calls write one after the other. -/
def journals (b : Bindings) (calls : List Call) : Journal :=
  ⟨calls.flatMap fun call => (call.journal b).steps,
    calls.flatMap fun call => (call.journal b).records⟩

section

variable (b : Bindings) (call : Call) (calls calls' : List Call)

theorem journals_cons : journals b (call :: calls) = call.journal b ++ journals b calls := by
  ext1 <;> simp [journals]

theorem journals_append : journals b (calls ++ calls') = journals b calls ++ journals b calls' := by
  ext1 <;> simp [journals]

theorem journals_singleton : journals b [call] = call.journal b := by
  ext1 <;> simp [journals]

end

end Call

/-- What a rule may write. A step comes with a record that tells of it, but a combining rule drops
in silence. -/
inductive Writes (combining : Bool) : Journal → Prop where
  | nothing : Writes combining .empty
  | noted {s : Step} {r : Record} (hr : r.step? = some s)
      (hs : combining = true → s.isDrop = false) : Writes combining (.noted s r)
  | silent {s : Step} (hcombining : combining = true) (hs : s.isDrop = true) :
      Writes combining (.silent s)

theorem writes_addZero (l r : Expr) : Writes false (written (addZero l r)) := by
  unfold addZero
  split_ifs
  · exact .noted rfl nofun
  · exact .noted rfl nofun
  · exact .nothing

theorem writes_multiplyZero (l r : Expr) : Writes false (written (multiplyZero l r)) := by
  unfold multiplyZero
  split_ifs
  · exact .noted rfl nofun
  · exact .nothing

theorem writes_multiplyOne (l r : Expr) : Writes false (written (multiplyOne l r)) := by
  unfold multiplyOne
  split_ifs
  · exact .noted rfl nofun
  · exact .noted rfl nofun
  · exact .nothing

theorem writes_substitute (b : Bindings) (x : Symbol) :
    Writes false (written (substitute b x)) := by
  unfold substitute
  cases b.get? x with
  | none => exact .nothing
  | some v => exact .noted rfl nofun

theorem writes_combineSum (l r : Expr) : Writes true (combineSum l r).2 := by
  unfold combineSum
  split
  · exact .noted rfl fun _ => rfl
  · split_ifs
    · exact .silent rfl rfl
    · exact .silent rfl rfl
    · exact .nothing

theorem writes_combineProduct (l r : Expr) : Writes true (combineProduct l r).2 := by
  unfold combineProduct
  split
  · exact .noted rfl fun _ => rfl
  · split
    · exact .noted rfl fun _ => rfl
    · split_ifs
      · exact .silent rfl rfl
      · exact .silent rfl rfl
      · exact .nothing

theorem Call.writes (b : Bindings) (call : Call) : Writes call.isCombining (call.journal b) := by
  cases call with
  | addZero l r => exact writes_addZero l r
  | multiplyZero l r => exact writes_multiplyZero l r
  | multiplyOne l r => exact writes_multiplyOne l r
  | substitute x => exact writes_substitute b x
  | combineSum l r => exact writes_combineSum l r
  | combineProduct l r => exact writes_combineProduct l r

/-- A call takes no step and makes no record, or takes one step and has a record of it or, if a
combining rule drops something, none. -/
theorem Call.steps_and_texts (b : Bindings) (call : Call) :
    ((call.journal b).steps = [] ∧ (call.journal b).records = []) ∨
      ∃ s, (call.journal b).steps = [s] ∧
        (call.journal b).records.map (fun r => Step.ofText? r.message) =
          if call.isCombining ∧ (s = .addZero ∨ s = .multiplyOne) then [] else [some s] := by
  have h := call.writes b
  generalize call.journal b = j at h
  cases h with
  | nothing => exact .inl ⟨rfl, rfl⟩
  | @noted s r hr hs =>
    refine .inr ⟨s, rfl, ?_⟩
    rw [if_neg, Journal.noted, List.map_singleton, Record.ofText?_message, hr]
    rintro ⟨hcombining, hdrop⟩
    have hloud := hs hcombining
    rw [Step.isDrop_iff.2 hdrop] at hloud
    cases hloud
  | @silent s hcombining hs =>
    refine .inr ⟨s, rfl, ?_⟩
    rw [if_pos ⟨hcombining, Step.isDrop_iff.1 hs⟩]
    rfl

/-- The records of calls tell of their steps in order, and of all that drop nothing. -/
theorem Call.exists_told (b : Bindings) (calls : List Call) :
    ∃ told : List Step, (journals b calls).records.map Record.step? = told.map some ∧
      told.Sublist (journals b calls).steps ∧
      told.filter (fun s => !s.isDrop) = (journals b calls).steps.filter fun s => !s.isDrop := by
  induction calls with
  | nil => exact ⟨[], rfl, List.Sublist.refl _, rfl⟩
  | cons call calls ih =>
    obtain ⟨told, hrecords, hsublist, hfilter⟩ := ih
    rw [journals_cons, Journal.steps_append, Journal.records_append]
    have h := call.writes b
    generalize call.journal b = j at h
    cases h with
    | nothing => exact ⟨told, hrecords, hsublist, hfilter⟩
    | @noted s r hr hs =>
      refine ⟨s :: told, ?_, hsublist.cons_cons s, ?_⟩
      · show r.step? :: (journals b calls).records.map Record.step? = some s :: told.map some
        rw [hr, hrecords]
      · show (s :: told).filter _ = (s :: (journals b calls).steps).filter _
        rw [List.filter_cons, List.filter_cons, hfilter]
    | @silent s hcombining hs =>
      refine ⟨told, hrecords, hsublist.cons s, ?_⟩
      show told.filter _ = (s :: (journals b calls).steps).filter _
      rw [List.filter_cons_of_neg (by simp [hs]), hfilter]

end Rule

/-! ## Calls of a simplification -/

namespace Expr

open Rule

/-- The rules that a simplification calls, in order: the literal ones for the operands as they are
written, the combining ones for what became of the operands. -/
def calls (b : Bindings) : Expr → List Call
  | number _ => []
  | symbol x => [.substitute x]
  | sum l r => .addZero l r ::
    match Rule.addZero l r with
    | some (.lhs, _) => l.calls b
    | some (.rhs, _) => r.calls b
    | none => l.calls b ++ r.calls b ++ [.combineSum (simplify b l) (simplify b r)]
  | product l r => .multiplyZero l r ::
    match Rule.multiplyZero l r with
    | some _ => []
    | none => .multiplyOne l r ::
      match Rule.multiplyOne l r with
      | some (.lhs, _) => l.calls b
      | some (.rhs, _) => r.calls b
      | none => l.calls b ++ r.calls b ++ [.combineProduct (simplify b l) (simplify b r)]

/-- The journal of a simplification is written by the rules that it calls. -/
theorem journals_calls (b : Bindings) (e : Expr) :
    Call.journals b (e.calls b) = (e.simplifyRules b).2 := by
  induction e with
  | number n => rfl
  | symbol x =>
    rw [calls, Call.journals_singleton, Call.journal]
    unfold simplifyRules
    cases Rule.substitute b x <;> rfl
  | sum l r ihl ihr =>
    unfold calls simplifyRules
    rw [Call.journals_cons, Call.journal]
    -- a literal rule that applies leaves one operand, and what it calls comes behind
    rcases Rule.addZero l r with _ | ⟨_ | _, j⟩
    · rw [Call.journals_append, Call.journals_append, Call.journals_singleton, ihl, ihr]
      rfl
    · exact congrArg (j ++ ·) ihl
    · exact congrArg (j ++ ·) ihr
  | product l r ihl ihr =>
    unfold calls simplifyRules
    rw [Call.journals_cons, Call.journal]
    rcases Rule.multiplyZero l r with _ | ⟨z, j⟩
    · dsimp only
      rw [Call.journals_cons, Call.journal]
      rcases Rule.multiplyOne l r with _ | ⟨_ | _, j⟩
      · rw [Call.journals_append, Call.journals_append, Call.journals_singleton, ihl, ihr]
        rfl
      · exact congrArg (j ++ ·) ihl
      · exact congrArg (j ++ ·) ihr
    · exact Journal.append_empty j

/-- The records of single rules among those of a simplification. -/
def traceRecords (b : Bindings) (e : Expr) : List Record :=
  (e.simplifyRecords b).filter fun r => r.level = .trace

theorem traceRecords_eq (b : Bindings) (e : Expr) :
    e.traceRecords b = (e.simplifyRules b).2.records := by
  obtain ⟨told, hrecords, -, -⟩ := Call.exists_told b (e.calls b)
  rw [journals_calls] at hrecords
  have htrace : ∀ r ∈ (e.simplifyRules b).2.records, r.level = .trace := by
    intro r hr
    have hstep : r.step? ∈ told.map some := hrecords ▸ List.mem_map_of_mem hr
    obtain ⟨s, -, hs⟩ := List.mem_map.1 hstep
    exact Record.level_of_step? hs.symm
  unfold traceRecords simplifyRecords
  rw [List.filter_append, List.filter_cons_of_neg Bool.false_ne_true,
    List.filter_eq_self.2 fun r hr => decide_eq_true (htrace r hr)]
  exact List.append_nil _

/-- Read by their texts, the records of the rules of a simplification tell of its steps in order,
and of every substitution, fold and product with zero. Steps and records are those of the rules
called, one after the other, and a step has no record exactly if a combining rule dropped a zero
term or a factor one. -/
theorem records_tell_steps (b : Bindings) (e : Expr) (before : List Step) :
    ∃ steps told : List Step, e.simplifyWith b before = (e.simplify b, before ++ steps) ∧
      (e.traceRecords b).map (fun r => Step.ofText? r.message) = told.map some ∧
      told.Sublist steps ∧
      told.filter (· ∈ [Step.substitute, .foldSum, .foldProduct, .multiplyZero]) =
        steps.filter (· ∈ [Step.substitute, .foldSum, .foldProduct, .multiplyZero]) ∧
      steps = (e.calls b).flatMap (fun call => (call.journal b).steps) ∧
      e.traceRecords b = (e.calls b).flatMap (fun call => (call.journal b).records) ∧
      ∀ call : Call, ((call.journal b).steps = [] ∧ (call.journal b).records = []) ∨
        ∃ s, (call.journal b).steps = [s] ∧
          (call.journal b).records.map (fun r => Step.ofText? r.message) =
            if call.isCombining ∧ (s = .addZero ∨ s = .multiplyOne) then [] else [some s] := by
  have hjournal := journals_calls b e
  obtain ⟨told, hrecords, hsublist, hfilter⟩ := Call.exists_told b (e.calls b)
  rw [hjournal] at hrecords hsublist hfilter
  have hloud : (fun s => decide (s ∈ [Step.substitute, .foldSum, .foldProduct, .multiplyZero])) =
      fun s => !s.isDrop := by
    funext s
    cases s <;> rfl
  refine ⟨(e.simplifyRules b).2.steps, told, rfl, ?_, hsublist, ?_, ?_, ?_,
    Call.steps_and_texts b⟩
  · rw [traceRecords_eq, ← hrecords]
    exact List.map_congr_left fun r _ => r.ofText?_message
  · rw [hloud, hfilter]
  · rw [← hjournal]
    rfl
  · rw [traceRecords_eq, ← hjournal]
    rfl

-- The zero that a product came to is dropped by a combining rule, so only the product is told of.
example :
    let e := sum (product (symbol ⟨"x", by decide⟩) zero) (symbol ⟨"y", by decide⟩)
    (e.simplifyWithSteps .empty).2 = [.multiplyZero, .addZero] ∧
      (e.traceRecords .empty).map Record.message = ["multiply_zero: (x * 0.000000) -> 0"] := by
  decide +kernel

end Expr

end SumProduct
