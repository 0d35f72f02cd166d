/-
When two expressions are the same. Equality compares their numbers as doubles, a hash is computed
from one word for each node in front of its content, and the stored form is a tree of choices. All
of them tell the same expressions apart: no code of an expression continues another one, and the
doubles of numbers are equal only with the same bits.
-/
import SumProduct.Data.Expr
import SumProduct.Expr.Hash
import SumProduct.Proofs.Number.Stored
import Mathlib.Data.List.Basic
import Mathlib.Tactic.TFAE

namespace SumProduct

/-! ## Codes -/

/-- Whether a code word can be read in front of anything: no other one continues it, and it
continues no other one. -/
def Delimited {α β : Type} (code : α → List β) (a : α) : Prop :=
  ∀ b r s, code a ++ r = code b ++ s → a = b ∧ r = s

/-- Whether all code words are delimited. -/
def PrefixFree {α β : Type} (code : α → List β) : Prop := ∀ a, Delimited code a

section Codes

variable {α β : Type} {code : α → List β}

theorem PrefixFree.injective (h : PrefixFree code) : Function.Injective code := by
  intro a b hcode
  exact (h a b [] [] (by rw [hcode])).1

/-- Two code words after each other. -/
theorem Delimited.append {a a' b b' : α} {r s : List β} (ha : Delimited code a)
    (hb : Delimited code b) (h : code a ++ code b ++ r = code a' ++ code b' ++ s) :
    a = a' ∧ b = b' ∧ r = s := by
  rw [List.append_assoc, List.append_assoc] at h
  obtain ⟨haa', h⟩ := ha _ _ _ h
  exact ⟨haa', hb _ _ _ h⟩

theorem prefixFree_of_length (n : Nat) (hlength : ∀ a, (code a).length = n)
    (hinj : Function.Injective code) : PrefixFree code := by
  intro a b r s h
  obtain ⟨hcode, hrest⟩ := List.append_inj h (by rw [hlength, hlength])
  exact ⟨hinj hcode, hrest⟩

/-- A mark that occurs in neither of two lists separates them from what follows. -/
theorem append_stop_inj {stop : β} {l l' r s : List β} (hl : stop ∉ l) (hl' : stop ∉ l')
    (h : l ++ stop :: r = l' ++ stop :: s) : l = l' ∧ r = s := by
  rcases List.append_eq_append_iff.1 h with ⟨m, rfl, hm⟩ | ⟨m, rfl, hm⟩
  · cases m with
    | nil => simp_all
    | cons x m => simp_all
  · cases m with
    | nil => simp_all
    | cons x m => simp_all

theorem prefixFree_append_stop {stop : β} (hstop : ∀ a, stop ∉ code a)
    (hinj : Function.Injective code) : PrefixFree fun a => code a ++ [stop] := by
  intro a b r s h
  rw [List.append_assoc, List.append_assoc] at h
  obtain ⟨hcode, hrest⟩ := append_stop_inj (hstop a) (hstop b) h
  exact ⟨hinj hcode, hrest⟩

end Codes

/-! ## Bytes -/

/-- The bytes of a word of 64 bits, the lowest first. -/
def wordBytes (w : UInt64) : List UInt8 :=
  (List.range 8).map fun i => UInt8.ofNat (w.toNat / 256 ^ i)

theorem wordBytes_injective : Function.Injective wordBytes := by
  intro v w h
  have hv := v.toNat_lt
  have hw := w.toNat_lt
  simp only [wordBytes, List.range_succ, List.range_zero, List.nil_append, List.cons_append,
    List.map_cons, pow_zero, Nat.div_one, UInt8.ofNat_uInt64ToNat, pow_one, Nat.reducePow,
    List.map_nil, List.cons.injEq, ← UInt8.toNat_inj, UInt64.toNat_toUInt8, UInt8.toNat_ofNat',
    and_true] at h
  rw [← UInt64.toNat_inj]
  omega

theorem length_wordBytes (w : UInt64) : (wordBytes w).length = 8 := by
  rw [wordBytes, List.length_map, List.length_range]

/-- The bytes of a text, which has no byte `0xff`. -/
def textBytes (s : String) : List UInt8 := s.toByteArray.data.toList

theorem textBytes_eq (s : String) : textBytes s = s.toList.flatMap String.utf8EncodeChar := by
  conv_lhs => rw [textBytes, ← String.ofList_toList (s := s)]
  rw [String.toByteArray_ofList, List.utf8Encode, List.data_toByteArray]

theorem textBytes_injective : Function.Injective textBytes := by
  intro s t h
  rw [← String.toByteArray_inj]
  exact ByteArray.ext (Array.toList_inj.1 h)

theorem stop_notMem_textBytes (s : String) : 0xff ∉ textBytes s := by
  rw [textBytes_eq, List.mem_flatMap]
  rintro ⟨c, -, hc⟩
  dsimp only [String.utf8EncodeChar] at hc
  generalize c.val.toNat = v at hc
  split_ifs at hc <;> simp [← UInt8.toNat_inj] at hc <;> omega

namespace Expr

/-! ## Codes of expressions -/

/-- The code of an expression, from one of its hash words. -/
def encode {β : Type} (code : HashWord → List β) (e : Expr) : List β := e.hashWords.flatMap code

def kind : Expr → Fin 4
  | number _ => 0
  | symbol _ => 1
  | sum .. => 2
  | product .. => 3

/-- What follows the kind of an expression in its code. -/
def content {β : Type} (code : HashWord → List β) : Expr → List β
  | number n => code (.bits n.toDouble.bits)
  | symbol x => code (.name x.name)
  | sum l r | product l r => l.encode code ++ r.encode code

theorem encode_eq {β : Type} (code : HashWord → List β) (e : Expr) :
    e.encode code = code (.kind e.kind) ++ e.content code := by
  cases e <;> simp only [encode, hashWords, content, kind, List.flatMap_cons, List.flatMap_append,
    List.flatMap_nil, List.append_nil] <;> rfl

/-- A code of hash words that tells apart those that can stand in the same place. Which place comes
next is known from what was read before. -/
structure HashWord.PrefixFree {β : Type} (code : HashWord → List β) : Prop where
  kind : SumProduct.PrefixFree fun k : Fin 4 => code (.kind k)
  bits : SumProduct.PrefixFree fun b => code (.bits b)
  name : SumProduct.PrefixFree fun s => code (.name s)

section Encode

variable {β : Type} {code : HashWord → List β}

theorem kind_and_content (h : HashWord.PrefixFree code) {a b : Expr} {u v : List β}
    (hcode : a.encode code ++ u = b.encode code ++ v) :
    a.kind = b.kind ∧ a.content code ++ u = b.content code ++ v := by
  rw [encode_eq, encode_eq, List.append_assoc, List.append_assoc] at hcode
  exact h.kind _ _ _ _ hcode

/-- The kind says how many expressions follow, so where the code of an expression ends needs no
mark. -/
theorem prefixFree_encode (h : HashWord.PrefixFree code) : PrefixFree (encode code) := by
  intro a
  induction a with
  | number n =>
    intro b u v hcode
    obtain ⟨hkind, hcontent⟩ := kind_and_content h hcode
    cases b with
    | number m =>
      obtain ⟨hbits, hrest⟩ := h.bits _ _ _ _ hcontent
      exact ⟨congrArg number (Number.bits_toDouble.1 hbits), hrest⟩
    | _ => simp [kind] at hkind
  | symbol x =>
    intro b u v hcode
    obtain ⟨hkind, hcontent⟩ := kind_and_content h hcode
    cases b with
    | symbol y =>
      obtain ⟨hname, hrest⟩ := h.name _ _ _ _ hcontent
      exact ⟨congrArg symbol (Symbol.ext hname), hrest⟩
    | _ => simp [kind] at hkind
  | sum l r ihl ihr =>
    intro b u v hcode
    obtain ⟨hkind, hcontent⟩ := kind_and_content h hcode
    cases b with
    | sum l' r' =>
      obtain ⟨hl, hr, hrest⟩ := ihl.append ihr hcontent
      exact ⟨congrArg₂ sum hl hr, hrest⟩
    | _ => simp [kind] at hkind
  | product l r ihl ihr =>
    intro b u v hcode
    obtain ⟨hkind, hcontent⟩ := kind_and_content h hcode
    cases b with
    | product l' r' =>
      obtain ⟨hl, hr, hrest⟩ := ihl.append ihr hcontent
      exact ⟨congrArg₂ product hl hr, hrest⟩
    | _ => simp [kind] at hkind

end Encode

/-! ## Codes of hash words -/

/-- The words as they are. -/
theorem HashWord.prefixFree_singleton : HashWord.PrefixFree fun w => [w] where
  kind := prefixFree_of_length 1 (fun _ => rfl) fun j k h => by simpa [Fin.ext_iff] using h
  bits := prefixFree_of_length 1 (fun _ => rfl) fun b c h => by simpa using h
  name := prefixFree_of_length 1 (fun _ => rfl) fun s t h => by simpa using h

theorem encode_singleton (e : Expr) : (e.encode fun w => [w]) = e.hashWords :=
  List.flatMap_singleton' _

/-- What a hash function is given that takes only bytes. -/
def HashWord.bytes : HashWord → List UInt8
  | kind k => wordBytes (.ofNat k)
  | bits b => wordBytes b
  | name s => textBytes s ++ [0xff]

theorem HashWord.prefixFree_bytes : HashWord.PrefixFree HashWord.bytes where
  kind := by
    apply prefixFree_of_length 8 (fun _ => length_wordBytes _)
    intro j k h
    have hjk : UInt64.ofNat j = UInt64.ofNat k := wordBytes_injective h
    rw [← UInt64.toNat_inj, UInt64.toNat_ofNat', UInt64.toNat_ofNat'] at hjk
    omega
  bits := prefixFree_of_length 8 length_wordBytes wordBytes_injective
  name := prefixFree_append_stop stop_notMem_textBytes textBytes_injective

/-! ## Hashes -/

/-- The bytes of the words of an expression. -/
def hashBytes (e : Expr) : List UInt8 := e.encode HashWord.bytes

theorem hashWords_injective : Function.Injective hashWords := by
  intro a b h
  apply (prefixFree_encode HashWord.prefixFree_singleton).injective
  rw [encode_singleton, encode_singleton, h]

theorem hashBytes_injective : Function.Injective hashBytes :=
  (prefixFree_encode HashWord.prefixFree_bytes).injective

/-- A hash function, as a machine that takes one word after another and answers at the end. -/
structure Hasher (σ : Type) where
  start : σ
  write : σ → HashWord → σ
  finish : σ → UInt64

namespace Hasher

variable {σ : Type} (h : Hasher σ)

/-- The state behind an expression. -/
def feed (s : σ) : Expr → σ
  | number n => h.write (h.write s (.kind 0)) (.bits n.toDouble.bits)
  | symbol x => h.write (h.write s (.kind 1)) (.name x.name)
  | sum l r => feed (feed (h.write s (.kind 2)) l) r
  | product l r => feed (feed (h.write s (.kind 3)) l) r

def hashCode (e : Expr) : UInt64 := h.finish (h.feed h.start e)

/-- A hash function is given the words of an expression, in their order. -/
theorem feed_eq_foldl (s : σ) (e : Expr) : h.feed s e = e.hashWords.foldl h.write s := by
  induction e generalizing s with
  | number n => rfl
  | symbol x => rfl
  | sum l r ihl ihr | product l r ihl ihr =>
    rw [feed, hashWords, List.foldl_cons, List.foldl_append, ihl, ihr]

/-- The machine that keeps what it is given. -/
def recorder : Hasher (List HashWord) where
  start := []
  write s w := s ++ [w]
  finish _ := 0

theorem feed_recorder (s : List HashWord) (e : Expr) : recorder.feed s e = s ++ e.hashWords := by
  rw [feed_eq_foldl]
  induction e.hashWords generalizing s with
  | nil => exact (List.append_nil s).symm
  | cons w ws ih => rw [List.foldl_cons, ih, recorder, List.append_assoc, List.singleton_append]

end Hasher

/-! ## Stored forms -/

theorem toData_injective : Function.Injective toData := by
  intro a
  induction a with
  | number n =>
    intro b h
    cases b with
    | number m =>
      have hreal : n.toDouble = m.toDouble := by simpa [toData, Data.choice] using h
      exact congrArg number (Number.toDouble_injective hreal)
    | _ => simp [toData, Data.choice] at h
  | symbol x =>
    intro b h
    cases b with
    | symbol y =>
      have hname : x.name = y.name := by simpa [toData, Data.choice] using h
      exact congrArg symbol (Symbol.ext hname)
    | _ => simp [toData, Data.choice] at h
  | sum l r ihl ihr =>
    intro b h
    cases b with
    | sum l' r' =>
      have hparts : l.toData = l'.toData ∧ r.toData = r'.toData := by
        simpa [toData, Data.choice] using h
      exact congrArg₂ sum (ihl hparts.1) (ihr hparts.2)
    | _ => simp [toData, Data.choice] at h
  | product l r ihl ihr =>
    intro b h
    cases b with
    | product l' r' =>
      have hparts : l.toData = l'.toData ∧ r.toData = r'.toData := by
        simpa [toData, Data.choice] using h
      exact congrArg₂ product (ihl hparts.1) (ihr hparts.2)
    | _ => simp [toData, Data.choice] at h

/-! ## Equality -/

/-- Equality: that of doubles for numbers and that of names for symbols, part by part. -/
def equal : Expr → Expr → Bool
  | number n, number m => n.toDouble.equal m.toDouble
  | symbol x, symbol y => x.name == y.name
  | sum l r, sum l' r' | product l r, product l' r' => l.equal l' && r.equal r'
  | _, _ => false

/-- Two expressions of the same shape with the same names and the same bits of numbers. -/
inductive Identical : Expr → Expr → Prop where
  | number {n m : Number} (h : n.toDouble.bits = m.toDouble.bits) :
      Identical (.number n) (.number m)
  | symbol {x y : Symbol} (h : x.name = y.name) : Identical (.symbol x) (.symbol y)
  | sum {l l' r r' : Expr} (hl : Identical l l') (hr : Identical r r') :
      Identical (.sum l r) (.sum l' r')
  | product {l l' r r' : Expr} (hl : Identical l l') (hr : Identical r r') :
      Identical (.product l r) (.product l' r')

theorem identical_iff {a b : Expr} : Identical a b ↔ a = b := by
  constructor
  · intro h
    induction h with
    | number h => rw [Number.bits_toDouble.1 h]
    | symbol h => rw [Symbol.ext h]
    | sum _ _ ihl ihr | product _ _ ihl ihr => rw [ihl, ihr]
  · rintro rfl
    induction a with
    | number n => exact .number rfl
    | symbol x => exact .symbol rfl
    | sum l r ihl ihr => exact .sum ihl ihr
    | product l r ihl ihr => exact .product ihl ihr

theorem equal_iff {a b : Expr} : a.equal b = true ↔ a = b := by
  induction a generalizing b with
  | number n => cases b <;> simp [equal, Number.equal_toDouble]
  | symbol x => cases b <;> simp [equal, Symbol.ext_iff]
  | sum l r ihl ihr => cases b <;> simp [equal, ihl, ihr]
  | product l r ihl ihr => cases b <;> simp [equal, ihl, ihr]

/-- The numbers of expressions are the doubles that admission and arithmetic lead to. Equality, the
words and the bytes given to hash functions, and stored forms tell the same expressions apart: those
that differ in shape, in a name or in a bit of a number. So equality is an equivalence, and equal
expressions have equal hashes. -/
theorem equality_hash_data_agree :
    (∀ x : Double, x.Stored ↔ ∃ n : Number, n.toDouble = x) ∧
    (∀ a b : Expr, List.TFAE [a.equal b = true, a = b, Identical a b, a.hashWords = b.hashWords,
      a.hashBytes = b.hashBytes, ∀ (σ : Type) (h : Hasher σ) (s : σ), h.feed s a = h.feed s b,
      a.toData = b.toData]) ∧
    Equivalence (fun a b : Expr => a.equal b = true) ∧
    ∀ (σ : Type) (h : Hasher σ) (a b : Expr), a.equal b = true → h.hashCode a = h.hashCode b := by
  refine ⟨fun _ => Double.stored_iff, fun a b => ?_, ?_, ?_⟩
  · -- all but the words of every hash function are equality of values
    rw [equal_iff, identical_iff, hashWords_injective.eq_iff, hashBytes_injective.eq_iff,
      toData_injective.eq_iff]
    tfae_have 1 → 6 := by
      rintro rfl σ h s
      rfl
    tfae_have 6 → 1 := by
      intro h
      have hwords := h _ Hasher.recorder []
      rw [Hasher.feed_recorder, Hasher.feed_recorder] at hwords
      exact hashWords_injective hwords
    tfae_finish
  · simp only [equal_iff]
    exact eq_equivalence
  · intro σ h a b hab
    rw [equal_iff.1 hab]

/-- A folded number is stored with the bits that it is written with. -/
theorem equality_hash_data_agree_folded :
    (sum (number (.zero + .one)) (number .zero)).equal (sum (number .one) zero) = true ∧
      ∀ (σ : Type) (h : Hasher σ), h.hashCode (sum (number (.zero + .one)) (number .zero)) =
        h.hashCode (sum (number .one) zero) := by
  have hequal :
      (sum (number (.zero + .one)) (number .zero)).equal (sum (number .one) zero) = true := by
    rw [Number.zero_add]
    decide
  exact ⟨hequal, fun σ h => equality_hash_data_agree.2.2.2 σ h _ _ hequal⟩

end Expr

end SumProduct
