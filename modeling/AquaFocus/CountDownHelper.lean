/-
`lib/screens/FocusTimer/CountDown/countdown_helper.dart`: seconds as hours,
minutes and seconds, and the coins the timers make of them.

`timeString` returns three strings, padded to two digits; whoever computes with
them parses them back, so here they are the numbers they spell. That nothing is
lost on the way is `strings_faithful`.
-/
import AquaFocus.Lib.DateTime

set_option autoImplicit false

namespace AquaFocus

/-- The three numbers of `timeString`. -/
structure TimeString where
  hours : ℤ
  minutes : ℤ
  seconds : ℤ
deriving DecidableEq

/-- `timeString`: dividing truncates, and `%` is never negative. -/
def timeString (seconds : ℤ) : TimeString where
  hours := seconds.tdiv 3600
  minutes := (seconds % 3600).tdiv 60
  seconds := seconds % 3600 % 60

/-- What the screens and `saveFocusTime` add up of it: an hour counts sixty, as a
minute does. -/
def TimeString.total (time : TimeString) : ℤ := time.seconds + time.minutes * 60 + time.hours * 60

theorem total_timeString (seconds : ℤ) :
    (timeString seconds).total = seconds % 3600 + seconds.tdiv 3600 * 60 := by
  have hmod : 0 ≤ seconds % 3600 := Int.emod_nonneg seconds (by decide)
  simp only [TimeString.total, timeString]
  rw [Int.tdiv_eq_ediv_of_nonneg hmod]
  omega

theorem total_nonneg {seconds : ℤ} (h : 0 ≤ seconds) : 0 ≤ (timeString seconds).total := by
  rw [total_timeString, Int.tdiv_eq_ediv_of_nonneg h]
  omega

theorem total_eq_zero_iff {seconds : ℤ} (h : 0 ≤ seconds) :
    (timeString seconds).total = 0 ↔ seconds = 0 := by
  rw [total_timeString, Int.tdiv_eq_ediv_of_nonneg h]
  omega

/-- No more than the seconds themselves. -/
theorem total_le {seconds : ℤ} (h : 0 ≤ seconds) : (timeString seconds).total ≤ seconds := by
  rw [total_timeString, Int.tdiv_eq_ediv_of_nonneg h]
  omega

/-! ## The strings

`timeString` returns its numbers in decimal, padded to two digits, and its
callers parse them back. Padding is by zeros, and only where there is one digit
and so no sign, so every number comes back. -/

/-- `padLeft`. -/
def padLeft (width : ℕ) (padding : Char) (s : String) : String :=
  String.ofList (List.replicate (width - s.length) padding ++ s.toList)

theorem toList_padLeft (width : ℕ) (c : Char) (s : String) :
    (padLeft width c s).toList = List.replicate (width - s.length) c ++ s.toList := by
  rw [padLeft, String.toList_ofList]

theorem length_padLeft (width : ℕ) (c : Char) (s : String) :
    (padLeft width c s).length = max width s.length := by
  rw [← String.length_toList, toList_padLeft, List.length_append, List.length_replicate,
    String.length_toList]
  omega

theorem padLeft_of_le {width : ℕ} (c : Char) {s : String} (h : width ≤ s.length) :
    padLeft width c s = s := by
  rw [padLeft, Nat.sub_eq_zero_of_le h, List.replicate_zero, List.nil_append,
    String.ofList_toList]

/-- The list of strings. -/
def TimeString.strings (time : TimeString) : List String :=
  [time.hours, time.minutes, time.seconds].map fun n => padLeft 2 '0' n.repr

def parseDigits (digits : List Char) : Option ℤ :=
  if digits ≠ [] ∧ digits.all Char.isDigit then some (Nat.ofDigitChars 10 digits 0) else none

/-- `int.parse`, of decimal digits with a sign or none. -/
def parseInt (s : String) : Option ℤ :=
  match s.toList with
  | '-' :: digits => (parseDigits digits).map fun n => -n
  | digits => parseDigits digits

/-- The sum that `moneyEarned`, `diffInt` and the others are. -/
def parsedTotal : List String → Option ℤ
  | [hours, minutes, seconds] =>
      (parseInt seconds).bind fun s =>
        (parseInt minutes).bind fun m => (parseInt hours).map fun h => s + m * 60 + h * 60
  | _ => none

/-- Leading zeros count for nothing. -/
theorem ofDigitChars_zeros (k : ℕ) : Nat.ofDigitChars 10 (List.replicate k '0') 0 = 0 := by
  induction k with
  | zero => rfl
  | succ k ih => exact ih

theorem all_isDigit_padded (n k : ℕ) :
    (List.replicate k '0' ++ n.repr.toList).all Char.isDigit = true := by
  rw [List.all_append, Bool.and_eq_true, List.all_eq_true, List.all_eq_true, Nat.toList_repr]
  refine ⟨fun c hc => ?_, fun c hc => Nat.isDigit_of_mem_toDigits (by omega) (by omega) hc⟩
  rw [List.eq_of_mem_replicate hc]
  rfl

theorem parseDigits_padded (n k : ℕ) :
    parseDigits (List.replicate k '0' ++ n.repr.toList) = some (n : ℤ) := by
  have hne : List.replicate k '0' ++ n.repr.toList ≠ [] := by
    rw [Nat.toList_repr]
    exact List.append_ne_nil_of_right_ne_nil _ Nat.toDigits_ne_nil
  rw [parseDigits, if_pos ⟨hne, all_isDigit_padded n k⟩, Nat.ofDigitChars_append,
    ofDigitChars_zeros, Nat.toList_repr, Nat.ofDigitChars_ten_toDigits]

/-- A string of digits is parsed as one. -/
theorem parseInt_of_isDigit {s : String} (h : s.toList.all Char.isDigit = true) :
    parseInt s = parseDigits s.toList := by
  unfold parseInt
  split
  · next digits hs =>
    rw [hs] at h
    exact absurd h (by simp)
  · rfl

/-- What `padLeft(2, '0')` made of a number is parsed as that number. -/
theorem parseInt_padLeft (n : ℤ) : parseInt (padLeft 2 '0' n.repr) = some n := by
  cases n with
  | ofNat k =>
      have hlist : (padLeft 2 '0' (Int.ofNat k).repr).toList
          = List.replicate (2 - k.repr.length) '0' ++ k.repr.toList := toList_padLeft 2 '0' k.repr
      rw [parseInt_of_isDigit (by rw [hlist]; exact all_isDigit_padded k _), hlist,
        parseDigits_padded]
      rfl
  | negSucc k =>
      -- a sign and a digit are two characters already
      have hrepr : (Int.negSucc k).repr = "-" ++ (k + 1).repr := rfl
      have hlen : 2 ≤ (Int.negSucc k).repr.length := by
        have hpos := Nat.length_repr_pos (n := k + 1)
        have hsign : "-".length = 1 := rfl
        rw [hrepr, String.length_append]
        omega
      have hlist : (padLeft 2 '0' (Int.negSucc k).repr).toList = '-' :: (k + 1).repr.toList := by
        rw [padLeft_of_le '0' hlen, hrepr, String.toList_append]
        rfl
      have hdigits := parseDigits_padded (k + 1) 0
      rw [List.replicate_zero, List.nil_append] at hdigits
      rw [parseInt, hlist]
      simp only [hdigits, Option.map_some]
      rfl

theorem padLeft_injective : Function.Injective fun n : ℤ => padLeft 2 '0' n.repr := by
  intro n k h
  have hparse := congrArg parseInt h
  simp only [parseInt_padLeft] at hparse
  exact Option.some.inj hparse

/-- The numbers come back from their strings. -/
theorem strings_injective : Function.Injective TimeString.strings := by
  rintro ⟨h, m, s⟩ ⟨h', m', s'⟩ heq
  simp only [TimeString.strings, List.map_cons, List.map_nil, List.cons.injEq, and_true] at heq
  rw [padLeft_injective heq.1, padLeft_injective heq.2.1, padLeft_injective heq.2.2]

/-- The strings add up to what the numbers do. -/
theorem parsedTotal_strings (time : TimeString) : parsedTotal time.strings = some time.total := by
  simp only [TimeString.strings, List.map_cons, List.map_nil, parsedTotal, parseInt_padLeft,
    Option.bind_some, Option.map_some]
  rfl

example : (timeString 7199).strings = ["01", "59", "59"] := by decide

/-! ## What is shown

A shown string is a numeral of two digits or more, with no zero put in front of
more than two. Read back, the three of them make the number of seconds again. -/

/-- Two digits or more, and more than two only without a zero in front. -/
structure IsNumeral (s : String) : Prop where
  digits : s.toList.all Char.isDigit = true
  two_le : 2 ≤ s.length
  head : 2 < s.length → s.toList.head? ≠ some '0'

/-- The decimal of a number other than zero has no zero in front. -/
theorem head?_toDigits_ne_zero (n : ℕ) (h : 0 < n) : (Nat.toDigits 10 n).head? ≠ some '0' := by
  induction n using Nat.strong_induction_on with
  | _ n ih =>
    by_cases hlt : n < 10
    · rw [Nat.toDigits_of_lt_base hlt, List.head?_cons, Ne, Option.some.injEq,
        Nat.digitChar_eq_zero]
      omega
    · -- the first digit is that of a tenth of the number
      rw [Nat.toDigits_of_base_le (by omega) (not_lt.mp hlt), List.head?_append]
      cases hhead : (Nat.toDigits 10 (n / 10)).head? with
      | none => exact absurd (List.head?_eq_none_iff.mp hhead) Nat.toDigits_ne_nil
      | some c =>
          rw [Option.some_or, ← hhead]
          exact ih (n / 10) (by omega) (by omega)

theorem isNumeral_padLeft (n : ℕ) : IsNumeral (padLeft 2 '0' n.repr) := by
  have hlen := length_padLeft 2 '0' n.repr
  refine ⟨by rw [toList_padLeft]; exact all_isDigit_padded n _, by omega, fun h => ?_⟩
  -- beyond two digits nothing is padded, and the number is not zero
  have hlong : 2 < n.repr.length := by omega
  have hn : 0 < n := by
    by_contra hzero
    rw [Nat.eq_zero_of_not_pos hzero] at hlong
    exact absurd hlong (by decide)
  rw [padLeft_of_le '0' hlong.le, Nat.toList_repr]
  exact head?_toDigits_ne_zero n hn

/-- The three numbers of a duration are those of a clock, and make it up. -/
theorem timeString_natCast (n : ℕ) : ∃ h m s : ℕ, timeString n = ⟨h, m, s⟩
    ∧ m < 60 ∧ s < 60 ∧ 3600 * h + 60 * m + s = n := by
  refine ⟨n / 3600, n % 3600 / 60, n % 3600 % 60, ?_, by omega, by omega, by omega⟩
  have hmod : 0 ≤ (n : ℤ) % 3600 := Int.emod_nonneg _ (by decide)
  unfold timeString
  rw [Int.tdiv_eq_ediv_of_nonneg (Int.natCast_nonneg n), Int.tdiv_eq_ediv_of_nonneg hmod]
  rfl

/-- **The display is faithful**: whatever the number of seconds, the three
strings are numerals of a clock that make it up, and no two numbers share them. -/
theorem strings_faithful :
    (∀ n : ℕ, ∃ h m s : String, ∃ hours minutes seconds : ℤ,
      (timeString n).strings = [h, m, s] ∧ IsNumeral h ∧ IsNumeral m ∧ IsNumeral s
        ∧ parseInt h = some hours ∧ parseInt m = some minutes ∧ parseInt s = some seconds
        ∧ 0 ≤ hours ∧ (0 ≤ minutes ∧ minutes < 60) ∧ (0 ≤ seconds ∧ seconds < 60)
        ∧ 3600 * hours + 60 * minutes + seconds = n)
      ∧ Function.Injective fun n : ℕ => (timeString n).strings := by
  constructor
  · intro n
    obtain ⟨h, m, s, heq, hm, hs, hsum⟩ := timeString_natCast n
    rw [heq]
    exact ⟨_, _, _, h, m, s, rfl, isNumeral_padLeft h, isNumeral_padLeft m, isNumeral_padLeft s,
      parseInt_padLeft h, parseInt_padLeft m, parseInt_padLeft s, by omega, by omega, by omega,
      by omega⟩
  · -- the numbers are parsed back from the strings, and make up the duration
    intro n k hnk
    obtain ⟨h, m, s, heq, -, -, hsum⟩ := timeString_natCast n
    obtain ⟨h', m', s', heq', -, -, hsum'⟩ := timeString_natCast k
    have hinj : timeString n = timeString k := strings_injective hnk
    rw [heq, heq', TimeString.mk.injEq, Int.natCast_inj, Int.natCast_inj, Int.natCast_inj] at hinj
    omega

end AquaFocus
