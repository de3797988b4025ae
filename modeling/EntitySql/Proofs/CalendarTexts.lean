import Mathlib
import EntitySql.Conversion
import EntitySql.Proofs.DataTexts
import EntitySql.Proofs.Lexing
import EntitySql.Proofs.Outcome

/-!
# Dates and times are read back

The text of a date or a time is read as what it was written for, and the text of a date and time is no
internet timestamp, as it has no offset. What is read is a date and a time that there are; the offset of a
timestamp moves it by a day at most, which leaves four-digit years by one.

* `Date.ofText?_of_isValid`, `Clock.ofText?_wholeText`, `Stamp.ofText?_of_tail`: texts are read back.
* `Stamp.isValid_of_ofText?`: what is read is valid.
* **`Dialect.toDatabase_normal`**: a converted value is converted to itself.
-/

namespace EntitySql

open Text (Reader natOfDigits)
open Text.Reader

/-! ## Readers -/

namespace Text.Reader

variable {α β : Type} {cs : List Char}

theorem bind_of_none {x : Reader α} {f : α → Reader β} (h : x cs = none) :
    (x >>= f) cs = none := by
  show StateT.bind x f cs = none
  rw [StateT.bind, h]
  rfl

theorem mark_cons (c : Char) : mark c (c :: cs) = some ((), cs) := if_pos rfl

theorem skip?_cons (c : Char) : skip? c (c :: cs) = some (true, cs) := if_pos rfl

theorem blanks_of_head (h : ∀ c ∈ cs.head?, isBlank c = false) : blanks cs = some ((), cs) := by
  cases cs with
  | nil => rfl
  | cons c cs => rw [blanks, trimStart, List.dropWhile_cons_of_neg (by simp [h c rfl])]

/-- The results of a reader are of a kind. -/
def Returns (Q : α → Prop) (r : Reader α) : Prop := ∀ cs a rest, r cs = some (a, rest) → Q a

namespace Returns

variable {P : α → Prop} {Q : β → Prop}

theorem bind {x : Reader α} {f : α → Reader β} (hx : Returns P x) (hf : ∀ a, P a → Returns Q (f a)) :
    Returns Q (x >>= f) := by
  intro cs b rest h
  cases hrun : x cs with
  | none =>
    rw [bind_of_none hrun] at h
    cases h
  | some r => exact hf r.1 (hx _ _ _ hrun) _ _ _ ((bind_of_some hrun).symm.trans h)

/-- What comes before does not matter. -/
theorem skip {x : Reader α} {f : α → Reader β} (hf : ∀ a, Returns Q (f a)) : Returns Q (x >>= f) :=
  bind (P := fun _ => True) (fun _ _ _ _ => trivial) fun a _ => hf a

theorem pure {a : α} (h : P a) : Returns P (pure a) := by
  intro cs b rest hb
  cases hb
  exact h

theorem checked {valid : α → Bool} {a : α} (h : valid a = true → P a) : Returns P (checked valid a) := by
  intro cs b rest hb
  unfold Text.Reader.checked at hb
  split at hb
  · cases hb
    exact h ‹_›
  · cases hb

theorem whole? {r : Reader α} (h : Returns P r) {s : String} {a : α} (hs : r.whole? s = some a) : P a := by
  unfold Text.Reader.whole? at hs
  split at hs
  · next hrun =>
    cases hs
    exact h _ _ _ hrun
  · cases hs

end Returns

end Text.Reader

/-! ## Digits -/

theorem isDigit_of_mem_padded {width n : Nat} {c : Char} (h : c ∈ (padded width n).toList) : c.isDigit = true := by
  rw [padded, String.toList_ofList, List.mem_append, List.mem_replicate] at h
  rcases h with ⟨-, rfl⟩ | h
  · rfl
  · exact Numeral.isDigit_of_mem h

theorem padded_ne_nil (width n : Nat) : (padded width n).toList ≠ [] := by
  rw [padded, String.toList_ofList]
  exact List.append_ne_nil_of_right_ne_nil _ Nat.toDigits_ne_nil

@[simp]
theorem natOfDigits_padded (width n : Nat) : natOfDigits (padded width n).toList = n := by
  rw [padded, String.toList_ofList]
  change Nat.ofDigitChars 10 (_ ++ _) 0 = n
  rw [Nat.ofDigitChars_append, Nat.ofDigitChars_replicate_zero, Nat.mul_zero]
  exact Nat.ofDigitChars_ten_toDigits

theorem length_padded {width n : Nat} (hw : 0 < width) (h : n < 10 ^ width) :
    (padded width n).toList.length = width := by
  have hle := (Nat.length_toDigits_le_iff (by decide : 1 < 10) hw).mpr h
  rw [padded, String.toList_ofList, List.length_append, List.length_replicate]
  exact Nat.sub_add_cancel hle

/-- Digits write less than their number allows. -/
theorem natOfDigits_lt {ds : List Char} (h : ∀ d ∈ ds, d.isDigit = true) : natOfDigits ds < 10 ^ ds.length := by
  induction ds using List.reverseRecOn with
  | nil => decide
  | append_singleton ds d ih =>
    have hd : d.toNat - '0'.toNat < 10 := by
      have hdigit := Token.isDigit_iff.mp (h d (by simp))
      simp only [Char.reduceToNat]
      omega
    have := ih fun d hd => h d (by simp [hd])
    rw [natOfDigits] at this ⊢
    rw [List.foldl_append, List.length_append, List.length_singleton, Nat.pow_succ]
    simp only [List.foldl_cons, List.foldl_nil]
    omega

namespace Calendar

variable {rest : List Char} {n : Nat}

theorem takeWhile_padded {width : Nat} (hw : 0 < width) (h : n < 10 ^ width) :
    (((padded width n).toList ++ rest).take width).takeWhile Char.isDigit = (padded width n).toList := by
  rw [List.take_left' (length_padded hw h)]
  exact List.takeWhile_eq_self_iff.mpr fun c hc => isDigit_of_mem_padded hc

theorem upTo_padded {width : Nat} (hw : 0 < width) (h : n < 10 ^ width) :
    upTo width ((padded width n).toList ++ rest) = some (n, rest) := by
  unfold upTo
  simp only [takeWhile_padded hw h, natOfDigits_padded, List.drop_left, List.isEmpty_iff, padded_ne_nil, if_false]

theorem exactly_padded {width : Nat} (hw : 0 < width) (h : n < 10 ^ width) :
    exactly width ((padded width n).toList ++ rest) = some (n, rest) := by
  unfold exactly
  simp only [takeWhile_padded hw h, natOfDigits_padded, length_padded hw h, if_true,
    List.drop_left' (length_padded hw h)]

/-- A digit is no blank and no sign. -/
theorem head_padded {width : Nat} {c : Char} (h : c ∈ ((padded width n).toList ++ rest).head?) :
    c.isDigit = true := by
  obtain ⟨d, ds, hds⟩ := List.exists_cons_of_ne_nil (padded_ne_nil width n)
  rw [hds] at h
  cases h
  exact isDigit_of_mem_padded (hds ▸ List.mem_cons_self)

theorem not_isBlank_of_isDigit {c : Char} (h : c.isDigit = true) : Text.isBlank c = false := by
  rw [Token.isDigit_iff] at h
  simp only [← Bool.not_eq_true, Text.isBlank, Bool.or_eq_true, Bool.and_eq_true, decide_eq_true_eq, beq_iff_eq]
  omega

theorem blanks_padded {width : Nat} :
    blanks ((padded width n).toList ++ rest) = some ((), (padded width n).toList ++ rest) :=
  blanks_of_head fun _ hc => not_isBlank_of_isDigit (head_padded hc)

theorem short_padded (h : n < 100) : short ((padded 2 n).toList ++ rest) = some (n, rest) :=
  (bind_of_some blanks_padded).trans (upTo_padded Nat.two_pos h)

theorem someDigits_padded {width : Nat} (h : ∀ c ∈ rest.head?, c.isDigit = false) :
    someDigits ((padded width n).toList ++ rest) = some ((padded width n).toList, rest) := by
  rw [someDigits, bind_of_some (digits_append (fun _ hc => isDigit_of_mem_padded hc) h)]
  exact if_pos (by simp only [List.isEmpty_eq_false_iff.mpr (padded_ne_nil _ _), Bool.not_false])

/-! ## Dates -/

theorem skip?_padded {width : Nat} {c : Char} (hc : c.isDigit = false) :
    skip? c ((padded width n).toList ++ rest) = some (false, (padded width n).toList ++ rest) := by
  refine skip?_of_ne fun d hd => ?_
  rintro rfl
  rw [head_padded hd] at hc
  cases hc

theorem year_text (y : Int) : year ((Date.yearText y).toList ++ '-' :: rest) = some (y, '-' :: rest) := by
  have hmark : ∀ c ∈ ('-' :: rest).head?, c.isDigit = false := by
    rintro c ⟨⟩
    rfl
  unfold Date.yearText
  split_ifs with h hneg
  · rw [year, bind_of_some blanks_padded, bind_of_some (skip?_padded rfl), if_neg Bool.false_ne_true,
      bind_of_some (skip?_padded rfl), if_neg Bool.false_ne_true, bind_of_some (upTo_padded (by decide) (by omega))]
    rw [Int.toNat_of_nonneg h.1]
    rfl
  · have hsign : ("-" ++ padded 4 y.natAbs).toList ++ '-' :: rest
        = '-' :: ((padded 4 y.natAbs).toList ++ '-' :: rest) := by simp
    rw [hsign, year, bind_of_some (blanks_of_head (by rintro c ⟨⟩; rfl)), bind_of_some (skip?_cons _),
      if_pos rfl, bind_of_some (someDigits_padded hmark), natOfDigits_padded,
      Int.ofNat_natAbs_of_nonpos hneg.le, neg_neg]
    rfl
  · have hsign : ("+" ++ padded 4 y.natAbs).toList ++ '-' :: rest
        = '+' :: ((padded 4 y.natAbs).toList ++ '-' :: rest) := by simp
    rw [hsign, year, bind_of_some (blanks_of_head (by rintro c ⟨⟩; rfl)),
      bind_of_some (skip?_of_ne (by rintro c ⟨⟩; decide)), if_neg Bool.false_ne_true,
      bind_of_some (skip?_cons _), if_pos rfl, bind_of_some (someDigits_padded hmark), natOfDigits_padded,
      Int.natAbs_of_nonneg (not_lt.mp hneg)]
    rfl

end Calendar

namespace Date

theorem daysIn_le (y : Int) (m : Nat) : daysIn y m ≤ 31 := by
  unfold daysIn
  split <;> (try split) <;> decide

theorem daysIn_pos {y : Int} {m : Nat} : 0 < daysIn y m ↔ 1 ≤ m ∧ m ≤ 12 := by
  by_cases hm : m ≤ 12
  · interval_cases m <;> simp only [daysIn] <;> (try split) <;> decide
  · unfold daysIn
    split <;> simp_all

theorem isValid_iff {d : Date} : d.isValid = true
    ↔ firstYear ≤ d.year ∧ d.year ≤ lastYear ∧ 1 ≤ d.day ∧ d.day ≤ daysIn d.year d.month := by
  simp only [isValid, Bool.and_eq_true, decide_eq_true_eq, and_assoc]

/-- The text of a date, part by part. -/
theorem toList_text_append (d : Date) (rest : List Char) : d.text.toList ++ rest = (yearText d.year).toList
    ++ '-' :: ((padded 2 d.month).toList ++ '-' :: ((padded 2 d.day).toList ++ rest)) := by
  simp [text]

theorem lt_of_isValid {d : Date} (h : d.isValid = true) : d.month < 100 ∧ d.day < 100 := by
  obtain ⟨-, -, hfirst, hlast⟩ := isValid_iff.mp h
  have hmonth := daysIn_pos.mp (hfirst.trans hlast)
  have hday := hlast.trans (daysIn_le d.year d.month)
  omega

end Date

theorem Calendar.date_text {d : Date} (h : d.isValid = true) (rest : List Char) :
    Calendar.date (d.text.toList ++ rest) = some (d, rest) := by
  obtain ⟨hmonth, hday⟩ := d.lt_of_isValid h
  rw [d.toList_text_append, Calendar.date, bind_of_some (year_text _), bind_of_some (mark_cons _),
    bind_of_some (short_padded hmonth), bind_of_some (mark_cons _), bind_of_some (short_padded hday)]
  exact if_pos h

/-! ## Times -/

namespace Clock

theorem isValid_iff {c : Clock} : c.isValid = true
    ↔ c.hour ≤ 23 ∧ c.minute ≤ 59 ∧ c.second ≤ 60 ∧ c.nanos < 1000000000 := by
  simp only [isValid, Bool.and_eq_true, decide_eq_true_eq, and_assoc]

/-- The text of a time, part by part. -/
theorem toList_wholeText_append (c : Clock) (tail : List Char) : c.wholeText.toList ++ tail = (padded 2 c.hour).toList
    ++ ':' :: ((padded 2 c.minute).toList ++ ':' :: ((padded 2 c.second).toList ++ tail)) := by
  simp [wholeText]

theorem lt_of_isValid {c : Clock} (h : c.isValid = true) : c.hour < 100 ∧ c.minute < 100 ∧ c.second < 100 := by
  obtain ⟨hhour, hminute, hsecond, -⟩ := isValid_iff.mp h
  omega

end Clock

namespace Calendar

theorem clock_text {c : Clock} {tail : List Char} {n : Nat} (h : { c with nanos := n }.isValid = true)
    (htail : fraction tail = some (n, [])) :
    clock (c.wholeText.toList ++ tail) = some ({ c with nanos := n }, []) := by
  obtain ⟨hhour, hminute, hsecond⟩ := Clock.lt_of_isValid h
  rw [c.toList_wholeText_append, clock, bind_of_some (short_padded hhour), bind_of_some (mark_cons _),
    bind_of_some (short_padded hminute), bind_of_some (mark_cons _), bind_of_some (short_padded hsecond),
    bind_of_some htail]
  exact if_pos h

/-- A fraction of `width` digits is one of nanoseconds. -/
theorem fraction_padded {width k : Nat} (hw : 0 < width) (hle : width ≤ 9) (h : k < 10 ^ width) :
    fraction ("." ++ padded width k).toList = some (k * 10 ^ (9 - width), []) := by
  have htext : ("." ++ padded width k).toList = '.' :: ((padded width k).toList ++ []) := by simp
  have hlength := length_padded hw h
  rw [htext, fraction, bind_of_some (skip?_cons _), if_pos rfl, bind_of_some (someDigits_padded (by simp)), nanosOf,
    List.take_of_length_le (hlength.trans_le hle), natOfDigits_padded, hlength]
  rfl

theorem fraction_text {c : Clock} (h : c.isValid = true) : fraction c.fractionText.toList = some (c.nanos, []) := by
  obtain ⟨-, -, -, hnanos⟩ := Clock.isValid_iff.mp h
  unfold Clock.fractionText
  split_ifs with hzero hmillis hmicros
  · rw [hzero]
    rfl
  · rw [fraction_padded (by decide) (by decide) (by omega)]
    congr
    omega
  · rw [fraction_padded (by decide) (by decide) (by omega)]
    congr
    omega
  · rw [fraction_padded (by decide) (by decide) hnanos, Nat.sub_self, Nat.pow_zero, Nat.mul_one]

/-! ## Dates with times -/

section Stamps

variable {s : Stamp} {tail : List Char} {n : Nat}

/-- A date and a time with a blank between them are read back, the fraction as it is written. -/
theorem stamp_text (hdate : s.date.isValid = true) (hclock : { s.clock with nanos := n }.isValid = true)
    (htail : fraction tail = some (n, [])) :
    stamp blanks (s.date.text.toList ++ ' ' :: (s.clock.wholeText.toList ++ tail))
      = some (⟨s.date, { s.clock with nanos := n }⟩, []) := by
  have hblank : blanks (' ' :: (s.clock.wholeText.toList ++ tail)) = some ((), s.clock.wholeText.toList ++ tail) := by
    have hcons : ∀ cs, blanks (' ' :: cs) = blanks cs := fun _ => rfl
    rw [hcons, s.clock.toList_wholeText_append]
    exact blanks_padded
  rw [stamp, bind_of_some (date_text hdate _), bind_of_some hblank, bind_of_some (clock_text hclock htail)]
  rfl

/-- Without an offset it is no internet timestamp. -/
theorem timestamp_text (hdate : s.date.isValid = true) (hclock : s.clock.isValid = true)
    (htail : fraction tail = some (n, [])) :
    timestamp (s.date.text.toList ++ ' ' :: (s.clock.wholeText.toList ++ tail)) = none := by
  obtain ⟨hmonth, hday⟩ := s.date.lt_of_isValid hdate
  obtain ⟨hhour, hminute, hsecond⟩ := s.clock.lt_of_isValid hclock
  have hdivider : ∀ cs, divider (' ' :: cs) = some ((), cs) := fun _ => rfl
  rw [s.date.toList_text_append, timestamp, Date.yearText]
  split_ifs with hyear hneg
  · rw [bind_of_some (exactly_padded (by decide) (by omega)), bind_of_some (mark_cons _),
      bind_of_some (exactly_padded Nat.two_pos hmonth), bind_of_some (mark_cons _),
      bind_of_some (exactly_padded Nat.two_pos hday), bind_of_some (hdivider _), s.clock.toList_wholeText_append,
      bind_of_some (exactly_padded Nat.two_pos hhour), bind_of_some (mark_cons _),
      bind_of_some (exactly_padded Nat.two_pos hminute), bind_of_some (mark_cons _),
      bind_of_some (exactly_padded Nat.two_pos hsecond), bind_of_some htail]
    exact bind_of_none rfl
  -- a sign is no digit
  · rw [String.toList_append]
    exact bind_of_none rfl
  · rw [String.toList_append]
    exact bind_of_none rfl

end Stamps

end Calendar

/-! ## What is read is valid -/

namespace Date

theorem isValid_next {d : Date} (h : d.isValid = true) (hy : d.year < lastYear) : d.next.isValid = true := by
  rw [isValid_iff] at h ⊢
  have hmonth := daysIn_pos.mp (h.2.2.1.trans h.2.2.2)
  unfold next
  split_ifs with hday hlast
  · exact ⟨h.1, h.2.1, Nat.le_add_left 1 _, hday⟩
  · exact ⟨h.1, h.2.1, le_rfl, daysIn_pos.mpr ⟨Nat.le_add_left 1 _, hlast⟩⟩
  · exact ⟨by dsimp only; omega, hy, le_rfl, Nat.le_add_left 1 30⟩

theorem isValid_previous {d : Date} (h : d.isValid = true) (hy : firstYear < d.year) : d.previous.isValid = true := by
  rw [isValid_iff] at h ⊢
  have hmonth := daysIn_pos.mp (h.2.2.1.trans h.2.2.2)
  unfold previous
  split_ifs with hday hfirst
  · exact ⟨h.1, h.2.1, by dsimp only; omega, by dsimp only; omega⟩
  · exact ⟨h.1, h.2.1, daysIn_pos.mpr (by omega), le_rfl⟩
  · exact ⟨by dsimp only; omega, by dsimp only; omega, Nat.le_add_left 1 30, le_refl 31⟩

end Date

namespace Stamp

/-- Both parts are valid. -/
def IsValid (s : Stamp) : Prop := s.date.isValid = true ∧ s.clock.isValid = true

/-- In a year that is neither the first nor the last, an offset leads to a moment that there is. -/
theorem IsValid.back {s : Stamp} (h : s.IsValid) (hfirst : Date.firstYear < s.date.year)
    (hlast : s.date.year < Date.lastYear) (minutes : Int) : (s.back minutes).IsValid := by
  obtain ⟨hdate, hclock⟩ := h
  refine ⟨?_, ?_⟩
  · unfold Stamp.back
    dsimp only
    split_ifs
    · exact Date.isValid_previous hdate hfirst
    · exact hdate
    · exact Date.isValid_next hdate hlast
  · rw [Clock.isValid_iff] at hclock ⊢
    unfold Stamp.back
    dsimp only
    omega

end Stamp

namespace Calendar

open Text.Reader (Returns)

theorem returns_date : Returns (·.isValid = true) date :=
  .skip fun _ => .skip fun _ => .skip fun _ => .skip fun _ => .skip fun _ => .checked id

theorem returns_clock : Returns (·.isValid = true) clock :=
  .skip fun _ => .skip fun _ => .skip fun _ => .skip fun _ => .skip fun _ => .skip fun _ => .checked id

theorem returns_stamp {between : Reader Unit} : Returns Stamp.IsValid (stamp between) :=
  .bind returns_date fun _ hdate => .skip fun _ => .bind returns_clock fun _ hclock => .pure ⟨hdate, hclock⟩

theorem returns_exactly (width : Nat) : Returns (· < 10 ^ width) (exactly width) := by
  intro cs n rest h
  unfold exactly at h
  dsimp only at h
  split at h
  · next hlength =>
    cases h
    conv_rhs => rw [← hlength]
    exact natOfDigits_lt fun d hd => List.mem_takeWhile_imp hd
  · cases h

theorem returns_timestamp : Returns Stamp.IsValid timestamp := by
  refine .bind (returns_exactly 4) fun y hy => ?_
  refine .skip fun _ => .skip fun month => .skip fun _ => .skip fun day => .skip fun _ => ?_
  refine .skip fun hour => .skip fun _ => .skip fun minute => .skip fun _ => .skip fun second => ?_
  refine .skip fun nanos => .skip fun ahead => ?_
  refine .bind (P := fun d : Date => d.isValid = true ∧ d.year = y) (.checked fun hdate => ⟨hdate, rfl⟩) ?_
  rintro date ⟨hdate, hyear⟩
  refine .bind (.checked (P := (·.isValid = true)) id) fun clock hclock => .pure ?_
  have hfirst : Date.firstYear < date.year := by
    rw [hyear, Date.firstYear]
    omega
  have hlast : date.year < Date.lastYear := by
    rw [hyear, Date.lastYear]
    omega
  exact Stamp.IsValid.back ⟨hdate, hclock⟩ hfirst hlast ahead

end Calendar

/-! ## Whole texts -/

theorem Date.ofText?_of_isValid {d : Date} (h : d.isValid = true) : Date.ofText? d.text = some d := by
  have hread := Calendar.date_text h []
  rw [List.append_nil] at hread
  rw [ofText?, whole?, StateT.run, hread]

theorem Clock.ofText?_wholeText {c : Clock} (h : c.isValid = true) :
    Clock.ofText? c.wholeText = some { c with nanos := 0 } := by
  have hwhole : { c with nanos := 0 }.isValid = true := by
    rw [isValid_iff] at h ⊢
    exact ⟨h.1, h.2.1, h.2.2.1, Nat.succ_pos _⟩
  have hread := Calendar.clock_text hwhole (show Calendar.fraction [] = some (0, []) from rfl)
  rw [List.append_nil] at hread
  rw [ofText?, whole?, StateT.run, hread]

namespace Stamp

/-- What is read is valid. -/
theorem isValid_of_ofText? {text : String} {s : Stamp} (h : Stamp.ofText? text = some s) : s.IsValid := by
  simp only [ofText?, Option.orElse_eq_some] at h
  rcases h with h | ⟨-, h | ⟨-, h⟩⟩
  · exact Calendar.returns_timestamp.whole? h
  · exact Calendar.returns_stamp.whole? h
  · exact Calendar.returns_stamp.whole? h

/-- A date and a time with a blank between them are read back. -/
theorem ofText?_of_tail {s : Stamp} (h : s.IsValid) {tail text : String} {n : Nat} (hn : n < 1000000000)
    (htail : Calendar.fraction tail.toList = some (n, []))
    (htext : text = s.date.text ++ " " ++ (s.clock.wholeText ++ tail)) :
    Stamp.ofText? text = some ⟨s.date, { s.clock with nanos := n }⟩ := by
  have hlist : text.toList = s.date.text.toList ++ ' ' :: (s.clock.wholeText.toList ++ tail.toList) := by
    simp [htext]
  have hclock : { s.clock with nanos := n }.isValid = true := by
    have := Clock.isValid_iff.mp h.2
    exact Clock.isValid_iff.mpr ⟨this.1, this.2.1, this.2.2.1, hn⟩
  have hstamp := Calendar.timestamp_text h.1 h.2 htail
  have hread := Calendar.stamp_text h.1 hclock htail
  rw [← hlist] at hstamp hread
  rw [ofText?, whole?, StateT.run, hstamp, whole?, StateT.run, hread]
  rfl

end Stamp

/-- The text of a moment is read as a moment with the same text. -/
theorem Dialect.exists_ofText?_stampText (d : Dialect) {s : Stamp} (h : s.IsValid) :
    ∃ t, Stamp.ofText? (d.stampText s) = some t ∧ d.stampText t = d.stampText s := by
  have hnanos := (Clock.isValid_iff.mp h.2).2.2.2
  have hwhole : s.wholeText " " = s.date.text ++ " " ++ (s.clock.wholeText ++ "") := by simp [Stamp.wholeText]
  cases d with
  | postgres => exact ⟨_, Stamp.ofText?_of_tail h hnanos (Calendar.fraction_text h.2) rfl, rfl⟩
  | generic => exact ⟨_, Stamp.ofText?_of_tail h (n := 0) (by decide) rfl hwhole, rfl⟩
  | mysql => exact ⟨_, Stamp.ofText?_of_tail h (n := 0) (by decide) rfl hwhole, rfl⟩

/-! ## Values -/

namespace Conversion

theorem ofString_eq_ok {α : Type} {target : String} {read : String → Option α} {v : Value} {a : α}
    (h : ofString target read v = .ok a) : ∃ s, read s = some a := by
  unfold ofString at h
  split at h
  · next s =>
    split at h
    · next hread =>
      cases h
      exact ⟨s, hread⟩
    · cases h
  · cases h

theorem ofString_string {α : Type} {target : String} {read : String → Option α} {s : String} {a : α}
    (h : read s = some a) : ofString target read (.string s) = .ok a := by
  simp only [ofString, h]

end Conversion

/-- **A converted value is converted to itself.** -/
theorem Dialect.toDatabase_normal {d : Dialect} {v w : Value} {ty : Option FieldType}
    (h : d.toDatabase v ty = .ok w) : d.toDatabase w ty = .ok w := by
  unfold toDatabase at h
  split_ifs at h with hnull
  · cases h
    rfl
  split at h
  · obtain ⟨b, -, hw⟩ := Outcome.bind_eq_ok.mp h
    cases hw
    cases d <;> cases b <;> rfl
  · obtain ⟨date, hdate, hw⟩ := Outcome.bind_eq_ok.mp h
    obtain ⟨s, hs⟩ := Conversion.ofString_eq_ok hdate
    cases hw
    exact Outcome.bind_eq_ok.mpr
      ⟨date, Conversion.ofString_string (Date.ofText?_of_isValid (Calendar.returns_date.whole? hs)), rfl⟩
  · obtain ⟨clock, hclock, hw⟩ := Outcome.bind_eq_ok.mp h
    obtain ⟨s, hs⟩ := Conversion.ofString_eq_ok hclock
    cases hw
    exact Outcome.bind_eq_ok.mpr
      ⟨_, Conversion.ofString_string (Clock.ofText?_wholeText (Calendar.returns_clock.whole? hs)), rfl⟩
  · obtain ⟨stamp, hstamp, hw⟩ := Outcome.bind_eq_ok.mp h
    obtain ⟨s, hs⟩ := Conversion.ofString_eq_ok hstamp
    obtain ⟨t, ht, htext⟩ := d.exists_ofText?_stampText (Stamp.isValid_of_ofText? hs)
    cases hw
    exact Outcome.bind_eq_ok.mpr ⟨t, Conversion.ofString_string ht, by rw [htext]; rfl⟩
  · cases h
    simp_all [toDatabase]

/-- An offset over the end of the last year of four digits, with a leap second. -/
theorem Dialect.toDatabase_normal_offset :
    Dialect.postgres.toDatabase (.string "9999-12-31T23:59:60.5-01:00") (some .dateTime)
        = .ok (.string "+10000-01-01 00:59:60.500")
      ∧ Dialect.postgres.toDatabase (.string "+10000-01-01 00:59:60.500") (some .dateTime)
        = .ok (.string "+10000-01-01 00:59:60.500") := by
  have h : Dialect.postgres.toDatabase (.string "9999-12-31T23:59:60.5-01:00") (some .dateTime)
      = .ok (.string "+10000-01-01 00:59:60.500") := by rfl
  exact ⟨h, toDatabase_normal h⟩

end EntitySql
