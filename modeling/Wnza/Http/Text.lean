/- GID: Wnza/Http/Text
   generality: I
   source: src/request_parser.cc (character classes, std::stoi)
   digest: Byte strings, the parser's character classes and the conversions of the standard
     library. -/

import Mathlib.Data.List.Basic
import Mathlib.Data.List.TakeWhile
import Mathlib.Data.UInt

set_option autoImplicit false
set_option relaxedAutoImplicit false

namespace Wnza.Http.Text

/-- A `std::string` is a string of bytes; the order of `std::map` keys is the one of `compare`. -/
abbrev Bytes := List UInt8

/-- The bytes of a literal of the source. -/
def lit (s : String) : Bytes := s.toList.map Char.toUInt8

abbrev SP : UInt8 := 32
abbrev TAB : UInt8 := 9
abbrev CR : UInt8 := 13
abbrev LF : UInt8 := 10
abbrev COLON : UInt8 := 58
abbrev DOT : UInt8 := 46
abbrev SLASH : UInt8 := 47

abbrev crlf : Bytes := [CR, LF]

/-- What can end a call other than by returning: the exceptions of `std::stoi` and of the
checked accesses of `std::string`, and accesses whose behaviour is undefined. -/
inductive Fault
  | invalidArgument | outOfRange | undefinedBehaviour
  deriving DecidableEq

/-- Bytes from 128 on are negative as `char`, so they are no HTTP characters. -/
def isChar (c : UInt8) : Bool := c.toNat ≤ 127

/-- The two ranges of `is_ctl`; bytes from 128 on are negative and in neither. -/
def isCtl (c : UInt8) : Bool := c.toNat ≤ 31 || c == 127

def isTspecial (c : UInt8) : Bool :=
  (lit "()<>@,;:\\\"/[]?=\x7b\x7d \t").contains c

def isDigit (c : UInt8) : Bool := 48 ≤ c.toNat && c.toNat ≤ 57

/-- The bytes that pass `!is_char(c) || is_ctl(c) || is_tspecial(c)`. -/
def isToken (c : UInt8) : Bool := !(!isChar c || isCtl c || isTspecial c)

theorem isToken_ne {c d : UInt8} (hc : isToken c = true) (hd : isToken d = false) : c ≠ d := by
  rintro rfl
  simp [hc] at hd

theorem isCtl_ne {c d : UInt8} (hc : isCtl c = false) (hd : isCtl d = true) : c ≠ d := by
  rintro rfl
  simp [hc] at hd

theorem isDigit_ne {c d : UInt8} (hc : isDigit c = true) (hd : isDigit d = false) : c ≠ d := by
  rintro rfl
  simp [hc] at hd

theorem isToken_of_isCtl {c : UInt8} (hc : isCtl c = true) : isToken c = false := by
  simp [isToken, hc]

theorem isDigit_of_isCtl {c : UInt8} (hc : isCtl c = true) : isDigit c = false := by
  simp only [isCtl, Bool.or_eq_true, decide_eq_true_eq, beq_iff_eq] at hc
  rcases hc with low | rfl
  · simp only [isDigit, Bool.and_eq_false_iff, decide_eq_false_iff_not]
    omega
  · decide

theorem forall_mem_of_all {α : Type} {P : α → Prop} [DecidablePred P] {as : List α}
    (h : as.all (fun a => decide (P a)) = true) : ∀ a ∈ as, P a := by
  intro a ha
  exact of_decide_eq_true (List.all_eq_true.mp h a ha)

theorem forall_mem_concat {α : Type} {P : α → Prop} {as : List α} {a : α}
    (has : ∀ x ∈ as, P x) (ha : P a) : ∀ x ∈ as ++ [a], P x :=
  List.forall_mem_append.mpr ⟨has, List.forall_mem_singleton.mpr ha⟩

/-- White space that `strtol` skips in the C locale. -/
def isSpace (c : UInt8) : Bool := c == 32 || (9 ≤ c.toNat && c.toNat ≤ 13)

/-- The number a run of digits denotes. -/
def digitsValue (ds : Bytes) : Nat := ds.foldl (fun n c => 10 * n + (c.toNat - 48)) 0

/-- The optional sign that `strtol` reads, and what follows it. -/
def splitSign : Bytes → Bool × Bytes
  | 45 :: s => (true, s)
  | 43 :: s => (false, s)
  | s => (false, s)

def INT_MAX : Int := 2147483647

def INT_MIN : Int := -2147483648

/-- `std::stoi` in base ten: white space, a sign, then the longest run of digits; what
follows the digits is ignored. -/
def stoi (s : Bytes) : Except Fault Int :=
  let (negative, s) := splitSign (s.dropWhile isSpace)
  let digits := s.takeWhile isDigit
  if digits = [] then .error .invalidArgument
  else
    let n : Int := if negative then -digitsValue digits else digitsValue digits
    if n < INT_MIN ∨ INT_MAX < n then .error .outOfRange else .ok n

/-- `atoi`: the number is clamped to a 64-bit `long` and then cut to an `int`; without digits it
is zero. -/
def atoi (s : Bytes) : Int :=
  let (negative, s) := splitSign (s.dropWhile isSpace)
  let digits := s.takeWhile isDigit
  let n : Int := if negative then -digitsValue digits else digitsValue digits
  Int.bmod (max (-2 ^ 63) (min n (2 ^ 63 - 1))) (2 ^ 32)

theorem isSpace_of_isDigit {c : UInt8} (hc : isDigit c = true) : isSpace c = false := by
  simp only [isDigit, Bool.and_eq_true, decide_eq_true_eq] at hc
  simp only [isSpace, Bool.or_eq_false_iff, beq_eq_false_iff_ne, Bool.and_eq_false_iff,
    decide_eq_false_iff_not]
  constructor
  · rintro rfl
    exact absurd hc.1 (by decide)
  · right
    omega

theorem splitSign_of_isDigit {c : UInt8} (hc : isDigit c = true) (s : Bytes) :
    splitSign (c :: s) = (false, c :: s) := by
  unfold splitSign
  split
  · rename_i heq
    rw [(List.cons.inj heq).1] at hc
    exact absurd hc (by decide)
  · rename_i heq
    rw [(List.cons.inj heq).1] at hc
    exact absurd hc (by decide)
  · rfl

theorem atoi_of_digits {ds : Bytes} (hds : ∀ c ∈ ds, isDigit c = true)
    (hvalue : digitsValue ds < 2 ^ 31) : atoi ds = digitsValue ds := by
  cases ds with
  | nil => rfl
  | cons d ds =>
      have digit : isDigit d = true := hds d List.mem_cons_self
      have all : (d :: ds).takeWhile isDigit = d :: ds := List.takeWhile_eq_self_iff.mpr hds
      have start : (d :: ds).dropWhile isSpace = d :: ds :=
        List.dropWhile_cons_of_neg (by simp [isSpace_of_isDigit digit])
      have inside : max (-2 ^ 63) (min (digitsValue (d :: ds) : Int) (2 ^ 63 - 1)) =
          digitsValue (d :: ds) := by omega
      simp only [atoi, start, splitSign_of_isDigit digit, all, Bool.false_eq_true, if_false, inside]
      exact Int.bmod_eq_of_le (by omega) (by omega)

/-- `std::to_string` of a length. -/
def stdToString (n : Nat) : Bytes := (Nat.toDigits 10 n).map Char.toUInt8

theorem isDigit_of_mem_stdToString {n : Nat} {c : UInt8} (h : c ∈ stdToString n) :
    isDigit c = true := by
  obtain ⟨d, hd, rfl⟩ := List.mem_map.mp h
  have digit := Nat.isDigit_of_mem_toDigits (by decide) (by decide) hd
  simp only [Char.isDigit, Bool.and_eq_true, decide_eq_true_eq, ge_iff_le, UInt32.le_iff_toNat_le]
    at digit
  have low : (48 : Nat) ≤ d.val.toNat := digit.1
  have high : d.val.toNat ≤ 57 := digit.2
  have same : d.toUInt8.toNat = d.val.toNat % 256 := rfl
  simp only [isDigit, Bool.and_eq_true, decide_eq_true_eq, same]
  omega

end Wnza.Http.Text
