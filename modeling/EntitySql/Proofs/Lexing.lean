import Mathlib
import EntitySql.Proofs.Shape
import EntitySql.Token.Scan

/-!
# Words, names and tokens

What the scanner reads of a text, in both directions: which tokens it can give, and that a word, a
dotted name, a number or a quoted string is read as one token wherever a boundary follows.

* `Token.IsName`: words with points between them, not reserved where there is only one.
* `Token.ends_scanFrom`: the run of the scanner, one lexeme after the other.
* `Token.of_mem_scan`: every token of a text is the lexeme at its place.
* `Token.isName_of_mem_scan`: a name that is not quoted is a name in this sense.
-/

namespace EntitySql

namespace Token

/-! ## Characters -/

theorem isDigit_iff {c : Char} : c.isDigit = true ↔ 48 ≤ c.toNat ∧ c.toNat ≤ 57 := by
  simp only [Char.isDigit, Bool.and_eq_true, decide_eq_true_eq, ge_iff_le, UInt32.le_iff_toNat_le]
  exact Iff.rfl

theorem isWordStart_iff {c : Char} : isWordStart c = true
    ↔ (65 ≤ c.toNat ∧ c.toNat ≤ 90) ∨ (97 ≤ c.toNat ∧ c.toNat ≤ 122) ∨ c.toNat = 95 := by
  simp only [isWordStart, Char.isAlpha, Char.isUpper, Char.isLower, Bool.or_eq_true, Bool.and_eq_true,
    decide_eq_true_eq, ge_iff_le, UInt32.le_iff_toNat_le, beq_iff_eq, ← Char.toNat_inj, or_assoc]
  exact Iff.rfl

/-- A character that starts a word starts nothing else. -/
theorem not_special_of_isWordStart {c : Char} (h : isWordStart c = true) :
    Text.isBlank c = false ∧ c ≠ '\x27' ∧ c ≠ '\x22' ∧ c ≠ '\x60' ∧ c ≠ '?' ∧ c ≠ ':'
      ∧ c.isDigit = false ∧ c ≠ '*' := by
  rw [isWordStart_iff] at h
  simp only [ne_eq, ← Char.toNat_inj, ← Bool.not_eq_true, isDigit_iff, Text.isBlank, Bool.or_eq_true,
    Bool.and_eq_true, decide_eq_true_eq, beq_iff_eq]
  refine ⟨by omega, ?_, ?_, ?_, ?_, ?_, by omega, ?_⟩ <;>
    (intro he; simp only [Char.reduceToNat] at he; omega)

/-! ## Words -/

/-- A word: a letter or `_`, and more of these or digits. -/
def isWord : List Char → Bool
  | [] => false
  | c :: cs => isWordStart c && cs.all isWordChar

theorem isWord_cons {w : List Char} (h : isWord w = true) :
    ∃ c cs, w = c :: cs ∧ isWordStart c = true ∧ ∀ d ∈ cs, isWordChar d = true := by
  cases w with
  | nil => cases h
  | cons c cs =>
    simp only [isWord, Bool.and_eq_true, List.all_eq_true] at h
    exact ⟨c, cs, rfl, h.1, h.2⟩

theorem wordRun_append {w rest : List Char} (hw : isWord w = true)
    (hrest : rest.takeWhile isWordChar = []) : wordRun (w ++ rest) = w.length := by
  obtain ⟨c, cs, rfl, hc, hcs⟩ := isWord_cons hw
  rw [List.cons_append, wordRun, if_pos hc, List.takeWhile_append_of_pos hcs, hrest, List.append_nil,
    List.length_cons]

theorem isWord_take_wordRun {cs : List Char} (h : wordRun cs ≠ 0) :
    isWord (cs.take (wordRun cs)) = true := by
  cases cs with
  | nil => exact absurd rfl h
  | cons c cs =>
    rw [wordRun] at h ⊢
    split at h
    · next hc =>
      rw [if_pos hc, List.take_succ_cons, ← List.prefix_iff_eq_take.mp (List.takeWhile_prefix isWordChar)]
      simp only [isWord, hc, Bool.true_and, List.all_eq_true]
      exact fun d hd => List.mem_takeWhile_imp hd
    · exact absurd rfl h

theorem wordRun_le (cs : List Char) : wordRun cs ≤ cs.length := by
  cases cs with
  | nil => exact le_refl _
  | cons c cs =>
    rw [wordRun]
    split
    · have := (List.takeWhile_sublist isWordChar (l := cs)).length_le
      simpa using this
    · exact Nat.zero_le _

/-! ## Dotted names -/

/-- A segment of a dotted name after the first. -/
def isSegment (cs : List Char) : Bool := cs == ['*'] || isWord cs

/-- Segments, each with a point before it. -/
def dotted (segments : List (List Char)) : List Char := segments.flatMap fun g => '.' :: g

/-- A text that is read as one name. -/
def IsName (s : String) : Prop :=
  ∃ w gs, s.toList = w ++ dotted gs ∧ isWord w = true ∧ (∀ g ∈ gs, isSegment g = true)
    ∧ (gs = [] → isReserved s = false)

/-- The characters after which a new token starts. -/
def Boundary (cs : List Char) : Prop := ∀ c, cs.head? = some c → c ∈ [' ', ',', ')', '(']

theorem Boundary.nil : Boundary [] := nofun

theorem Boundary.cons {c : Char} {cs : List Char} (h : c ∈ [' ', ',', ')', '(']) : Boundary (c :: cs) := by
  rintro _ ⟨⟩
  exact h

theorem Boundary.takeWhile {p : Char → Bool} {cs : List Char} (h : Boundary cs)
    (hp : ∀ c ∈ [' ', ',', ')', '('], p c = false) : cs.takeWhile p = [] := by
  cases cs with
  | nil => rfl
  | cons c cs => rw [List.takeWhile_cons, hp c (h c rfl)]; rfl

theorem segmentsRun_other {cs : List Char} (h : cs.head? ≠ some '.') (fuel : Nat) :
    segmentsRun fuel cs = 0 := by
  unfold segmentsRun
  split
  · rfl
  · exact absurd rfl h
  · rfl

theorem segmentRun_word {cs : List Char} (h : cs.head? ≠ some '*') : segmentRun cs = wordRun cs := by
  unfold segmentRun
  split
  · exact absurd rfl h
  · rfl

theorem segmentRun_append {g rest : List Char} (hg : isSegment g = true)
    (hrest : rest.takeWhile isWordChar = []) : segmentRun (g ++ rest) = g.length ∧ g.length ≠ 0 := by
  simp only [isSegment, Bool.or_eq_true, beq_iff_eq] at hg
  rcases hg with rfl | hg
  · exact ⟨rfl, by decide⟩
  · obtain ⟨c, cs, rfl, hc, -⟩ := isWord_cons hg
    refine ⟨?_, Nat.succ_ne_zero _⟩
    rw [segmentRun_word, wordRun_append hg hrest]
    exact fun h => (not_special_of_isWordStart hc).2.2.2.2.2.2.2 (Option.some.inj h)

theorem isSegment_take_segmentRun {cs : List Char} (h : segmentRun cs ≠ 0) :
    isSegment (cs.take (segmentRun cs)) = true ∧ segmentRun cs ≤ cs.length := by
  by_cases hstar : cs.head? = some '*'
  · obtain ⟨cs, rfl⟩ : ∃ tail, cs = '*' :: tail := by
      cases cs with
      | nil => cases hstar
      | cons c cs => exact ⟨cs, by rw [Option.some.inj hstar]⟩
    exact ⟨rfl, Nat.succ_le_succ (Nat.zero_le _)⟩
  · rw [segmentRun_word hstar] at h ⊢
    exact ⟨by simp [isSegment, isWord_take_wordRun h], wordRun_le cs⟩

theorem dotted_takeWhile (gs : List (List Char)) {rest : List Char} (h : Boundary rest) :
    (dotted gs ++ rest).takeWhile isWordChar = [] := by
  cases gs with
  | nil => exact h.takeWhile (by simp [isWordChar])
  | cons g gs => rfl

theorem length_le_dotted (gs : List (List Char)) : gs.length ≤ (dotted gs).length := by
  induction gs with
  | nil => exact le_refl _
  | cons g gs ih =>
    have hcons : dotted (g :: gs) = '.' :: (g ++ dotted gs) := rfl
    rw [hcons, List.length_cons, List.length_cons, List.length_append]
    omega

theorem segmentsRun_dotted {rest : List Char} (hrest : Boundary rest) :
    ∀ {gs : List (List Char)} {fuel : Nat}, (∀ g ∈ gs, isSegment g = true) → gs.length ≤ fuel →
    segmentsRun fuel (dotted gs ++ rest) = (dotted gs).length
  | [], fuel, _, _ => segmentsRun_other (fun h => absurd (hrest _ h) (by decide)) fuel
  | g :: gs, fuel + 1, hgs, hfuel => by
    obtain ⟨hg, hgs⟩ := List.forall_mem_cons.mp hgs
    obtain ⟨hrun, hne⟩ := segmentRun_append hg (dotted_takeWhile gs hrest)
    have happ : dotted (g :: gs) ++ rest = '.' :: (g ++ (dotted gs ++ rest)) := by
      simp [dotted, List.append_assoc]
    have hmore := segmentsRun_dotted hrest hgs (Nat.le_of_succ_le_succ hfuel)
    rw [happ, segmentsRun, hrun, if_neg hne, List.drop_left, hmore]
    simp only [dotted, List.flatMap_cons, List.length_append, List.length_cons]

/-- What is read as segments are segments. -/
theorem take_segmentsRun : ∀ (fuel : Nat) (cs : List Char), ∃ gs : List (List Char),
    (∀ g ∈ gs, isSegment g = true) ∧ cs.take (segmentsRun fuel cs) = dotted gs
      ∧ (dotted gs).length = segmentsRun fuel cs
  | 0, cs => ⟨[], nofun, rfl, rfl⟩
  | fuel + 1, cs => by
    by_cases hpoint : cs.head? = some '.'
    · obtain ⟨cs, rfl⟩ : ∃ tail, cs = '.' :: tail := by
        cases cs with
        | nil => cases hpoint
        | cons c cs => exact ⟨cs, by rw [Option.some.inj hpoint]⟩
      rw [segmentsRun]
      split
      · exact ⟨[], nofun, rfl, rfl⟩
      · next hne =>
        obtain ⟨hg, hle⟩ := isSegment_take_segmentRun hne
        obtain ⟨gs, hgs, htake, hlen⟩ := take_segmentsRun fuel (cs.drop (segmentRun cs))
        refine ⟨cs.take (segmentRun cs) :: gs, List.forall_mem_cons.mpr ⟨hg, hgs⟩, ?_, ?_⟩
        · rw [Nat.add_right_comm, List.take_succ_cons, List.take_add, htake]
          rfl
        · have hcons : dotted (cs.take (segmentRun cs) :: gs)
              = '.' :: (cs.take (segmentRun cs) ++ dotted gs) := rfl
          rw [hcons, List.length_cons, List.length_append, List.length_take, hlen]
          omega
    · rw [segmentsRun_other hpoint]
      exact ⟨[], nofun, rfl, rfl⟩

/-! ## The lexeme at the head -/

/-- At the start of a word stands a word or a dotted name. -/
theorem lexeme?_wordStart {c : Char} {cs : List Char} (hc : isWordStart c = true) :
    lexeme? (c :: cs) = some (
      if segmentsRun (c :: cs).length ((c :: cs).drop (wordRun (c :: cs))) ≠ 0 then
        { kind := .identifier
          size := wordRun (c :: cs) + segmentsRun (c :: cs).length ((c :: cs).drop (wordRun (c :: cs))) }
      else if isReserved (String.ofList ((c :: cs).take (wordRun (c :: cs)))) then
        { kind := .keyword, size := wordRun (c :: cs) }
      else { kind := .identifier, size := wordRun (c :: cs) }) := by
  obtain ⟨hblank, hq, hqq, hb, hm, hcolon, hdigit, -⟩ := not_special_of_isWordStart hc
  have hnumber : numberRun (c :: cs) = 0 := by
    simp only [numberRun, digitRun, List.takeWhile_cons, hdigit]
    rfl
  have hword : wordRun (c :: cs) ≠ 0 := by
    rw [wordRun, if_pos hc]
    exact Nat.succ_ne_zero _
  rw [lexeme?, if_neg (by simp [hblank]), if_neg hq, if_neg hqq, if_neg hb, if_neg hm, if_neg hcolon,
    plainLexeme?, if_neg (by simp [hnumber])]
  simp only [if_neg hword]
  split
  · rfl
  · split <;> rfl

/-- A word with the segments after it is one token. -/
theorem lexeme?_dotted {w rest : List Char} {gs : List (List Char)} (hw : isWord w = true)
    (hgs : ∀ g ∈ gs, isSegment g = true) (hrest : Boundary rest) :
    lexeme? (w ++ dotted gs ++ rest) = some
      { kind := if gs = [] ∧ isReserved (String.ofList w) = true then .keyword else .identifier
        size := (w ++ dotted gs).length } := by
  have hrun := wordRun_append hw (dotted_takeWhile gs hrest)
  have hlength : gs.length ≤ (w ++ (dotted gs ++ rest)).length := by
    have := length_le_dotted gs
    simp only [List.length_append]
    omega
  have hsegments := segmentsRun_dotted hrest hgs hlength
  have hdrop : (w ++ (dotted gs ++ rest)).drop w.length = dotted gs ++ rest := List.drop_left
  have htake : (w ++ (dotted gs ++ rest)).take w.length = w := List.take_left
  have hstart : ∃ c cs, w ++ (dotted gs ++ rest) = c :: cs ∧ isWordStart c = true := by
    obtain ⟨c, cs, rfl, hc, -⟩ := isWord_cons hw
    exact ⟨c, _, rfl, hc⟩
  rw [List.append_assoc]
  obtain ⟨c, cs, heq, hc⟩ := hstart
  rw [heq] at hrun hsegments hdrop htake ⊢
  rw [lexeme?_wordStart hc, hrun, hdrop, htake, hsegments]
  cases gs with
  | nil => simp [dotted]; split <;> rfl
  | cons g gs => simp [dotted]

/-- The tokens that a single character makes up. -/
theorem lexeme?_symbol {c : Char} (hc : c ∈ ['(', ')', ',', '-', '*', '.']) (cs : List Char) :
    lexeme? (c :: cs) = some { kind := .symbol, size := 1 } := by
  simp only [List.mem_cons, List.not_mem_nil, or_false] at hc
  rcases hc with rfl | rfl | rfl | rfl | rfl | rfl <;> rfl

/-- The symbols of operators, before a boundary. -/
theorem lexeme?_operator {s : String} {rest : List Char} (hrest : Boundary rest)
    (hs : s ∈ ["=", "!=", "<", "<=", ">", ">=", "+", "-", "*", "/", "%", "||"]) :
    lexeme? (s.toList ++ rest) = some { kind := .symbol, size := s.toList.length } := by
  simp only [List.mem_cons, List.not_mem_nil, or_false] at hs
  obtain rfl | ⟨c, cs, rfl, hc⟩ : rest = [] ∨ ∃ c cs, rest = c :: cs ∧ c ∈ [' ', ',', ')', '('] := by
    cases rest with
    | nil => exact .inl rfl
    | cons c cs => exact .inr ⟨c, cs, rfl, hrest c rfl⟩
  · rcases hs with rfl | rfl | rfl | rfl | rfl | rfl | rfl | rfl | rfl | rfl | rfl | rfl <;> rfl
  · simp only [List.mem_cons, List.not_mem_nil, or_false] at hc
    rcases hs with rfl | rfl | rfl | rfl | rfl | rfl | rfl | rfl | rfl | rfl | rfl | rfl <;>
      rcases hc with rfl | rfl | rfl | rfl <;> rfl

/-! ## Numbers -/

theorem numberRun_digits {ds rest : List Char} (hds : ∀ d ∈ ds, d.isDigit = true) (hne : ds ≠ [])
    (hrest : Boundary rest) : numberRun (ds ++ rest) = ds.length := by
  have hrun : digitRun (ds ++ rest) = ds.length := by
    rw [digitRun, List.takeWhile_append_of_pos hds, hrest.takeWhile (by simp), List.append_nil]
  have hdecimals : decimalRun rest = 0 := by
    unfold decimalRun
    split
    · exact absurd (hrest '.' rfl) (by decide)
    · rfl
  have hexponent : exponentRun rest = 0 := by
    unfold exponentRun
    split
    · rw [if_neg]
      rintro (rfl | rfl)
      · exact absurd (hrest 'e' rfl) (by decide)
      · exact absurd (hrest 'E' rfl) (by decide)
    · rfl
  simp only [numberRun, hrun, if_neg (List.length_eq_zero_iff.not.mpr hne), List.drop_left, hdecimals,
    Nat.add_zero, hexponent]

theorem lexeme?_digits {ds rest : List Char} (hds : ∀ d ∈ ds, d.isDigit = true) (hne : ds ≠ [])
    (hrest : Boundary rest) :
    lexeme? (ds ++ rest) = some { kind := .literal, size := ds.length } := by
  have hrun := numberRun_digits hds hne hrest
  obtain ⟨d, ds, rfl⟩ := List.exists_cons_of_ne_nil hne
  have hd := isDigit_iff.mp (hds d List.mem_cons_self)
  have hspecial : Text.isBlank d = false ∧ d ≠ '\x27' ∧ d ≠ '\x22' ∧ d ≠ '\x60' ∧ d ≠ '?' ∧ d ≠ ':' := by
    simp only [ne_eq, ← Char.toNat_inj, ← Bool.not_eq_true, Text.isBlank, Bool.or_eq_true,
      Bool.and_eq_true, decide_eq_true_eq, beq_iff_eq]
    refine ⟨by omega, ?_, ?_, ?_, ?_, ?_⟩ <;> (intro he; simp only [Char.reduceToNat] at he; omega)
  obtain ⟨hblank, hq, hqq, hb, hm, hcolon⟩ := hspecial
  rw [List.cons_append] at hrun ⊢
  rw [lexeme?, if_neg (by simp [hblank]), if_neg hq, if_neg hqq, if_neg hb, if_neg hm, if_neg hcolon,
    plainLexeme?, hrun, if_pos (by simp)]

/-! ## Strings -/

/-- The characters with each `q` written twice. -/
def twice (q : Char) (cs : List Char) : List Char := cs.flatMap fun d => if d = q then [d, d] else [d]

theorem toList_doubled (q : Char) (s : String) : (Text.doubled q s).toList = twice q s.toList :=
  String.toList_ofList

/-- A closing quote is found after the doubled ones. -/
theorem closing?_twice {q : Char} {rest : List Char} (hrest : rest.head? ≠ some q) :
    ∀ cs : List Char, closing? q (twice q cs ++ q :: rest) = some ((twice q cs).length + 1)
  | [] => by
    cases rest with
    | nil => simp [twice, closing?]
    | cons d ds =>
      have hd : d ≠ q := fun h => hrest (by rw [h]; rfl)
      simp [twice, closing?, hd]
  | c :: cs => by
    have ih := closing?_twice hrest cs
    by_cases hc : c = q
    · have hcons : twice q (c :: cs) = q :: q :: twice q cs := by simp [twice, hc]
      simp [hcons, closing?, ih]
    · have hcons : twice q (c :: cs) = c :: twice q cs := by simp [twice, hc]
      rw [hcons, List.cons_append]
      obtain ⟨d, ds, heq⟩ : ∃ d ds, twice q cs ++ q :: rest = d :: ds :=
        List.exists_cons_of_ne_nil (by simp)
      rw [heq] at ih ⊢
      simp [closing?, hc, ih]

theorem undoubleChars_twice (q : Char) : ∀ cs : List Char, Text.undoubleChars q (twice q cs) = cs
  | [] => rfl
  | c :: cs => by
    have ih := undoubleChars_twice q cs
    by_cases hc : c = q
    · have hcons : twice q (c :: cs) = q :: q :: twice q cs := by simp [twice, hc]
      rw [hcons, Text.undoubleChars, if_pos ⟨rfl, rfl⟩, ih, hc]
    · have hcons : twice q (c :: cs) = c :: twice q cs := by simp [twice, hc]
      rw [hcons]
      cases h : twice q cs with
      | nil =>
        rw [h] at ih
        rw [← ih]
        rfl
      | cons d ds =>
        rw [h] at ih
        rw [Text.undoubleChars, if_neg (fun hq => hc hq.1), ih]

theorem toList_quoted (s : String) :
    (Literal.quoted s).toList = '\x27' :: (twice '\x27' s.toList ++ ['\x27']) := by
  simp only [Literal.quoted, String.toList_append, toList_doubled]
  rfl

theorem lexeme?_quoted (s : String) {rest : List Char} (hrest : Boundary rest) :
    lexeme? ((Literal.quoted s).toList ++ rest)
      = some { kind := .literal, size := (Literal.quoted s).toList.length } := by
  have hclose := closing?_twice (q := '\x27') (fun h => absurd (hrest _ h) (by decide)) s.toList
  have hblank : Text.isBlank '\x27' = false := rfl
  rw [toList_quoted, List.cons_append, List.append_assoc, List.singleton_append, lexeme?, if_neg (by simp [hblank]),
    if_pos rfl, hclose]
  simp

/-- A string is recovered from its quoted form. -/
theorem ofToken?_quoted (s : String) : Literal.ofToken? (Literal.quoted s) = some (.string s) := by
  simp only [Literal.ofToken?, toList_quoted]
  simp [undoubleChars_twice]

/-- A number is recovered from its digits. -/
theorem ofToken?_digits {ds : List Char} (hds : ∀ d ∈ ds, d.isDigit = true) (hne : ds ≠ [])
    (hfits : Text.natOfDigits ds < 0x8000000000000000) :
    Literal.ofToken? (String.ofList ds) = some (.int (Text.natOfDigits ds)) := by
  have htake : ds.takeWhile Char.isDigit = ds := List.takeWhile_eq_self_iff.mpr hds
  have hdrop : ds.dropWhile Char.isDigit = [] := List.dropWhile_eq_nil_iff.mpr hds
  unfold Literal.ofToken?
  rw [String.toList_ofList]
  split
  · exact absurd (hds '\x27' List.mem_cons_self) (by decide)
  · simp [htake, hdrop, hne, hfits]

theorem ofToken?_repr {k : Nat} (h : k < 0x8000000000000000) :
    Literal.ofToken? k.repr = some (.int k) := by
  have hvalue : Text.natOfDigits (Nat.toDigits 10 k) = k := Nat.ofDigitChars_ten_toDigits
  have hint := ofToken?_digits (fun d hd => Nat.isDigit_of_mem_toDigits (by decide) (by decide) hd)
    (Nat.toDigits_ne_nil (n := k) (b := 10)) (by rwa [hvalue])
  rwa [hvalue] at hint

/-! ## Which lexemes there are -/

variable {c : Char} {cs : List Char} {l : Lexeme}

/-- The kinds of what is neither blank nor quoted nor a marker. -/
theorem plainLexeme?_kind (h : plainLexeme? cs = some l) :
    l.kind ≠ .parameter ∧ (wordRun cs = 0 → l.kind ≠ .identifier) := by
  simp only [plainLexeme?, Lexeme.ofSize?] at h
  split_ifs at h <;> cases h <;> simp [*]

theorem plainLexeme?_quote (h : plainLexeme? cs = some l) : l.quote = none := by
  simp only [plainLexeme?, Lexeme.ofSize?] at h
  split_ifs at h <;> cases h <;> rfl

theorem plainLexeme?_size (h : plainLexeme? cs = some l) : l.size ≠ 0 := by
  simp only [plainLexeme?, Lexeme.ofSize?] at h
  split_ifs at h <;> cases h <;> simp [*]

theorem ne_nil_of_lexeme? (h : lexeme? cs = some l) : cs ≠ [] := by
  rintro rfl
  cases h

/-- A lexeme is not empty. -/
theorem size_ne_zero (h : lexeme? cs = some l) : l.size ≠ 0 := by
  unfold lexeme? at h
  split at h
  · cases h
  · split_ifs at h
    · cases h; exact Nat.succ_ne_zero _
    · obtain ⟨n, -, rfl⟩ := Option.map_eq_some_iff.mp h
      exact Nat.succ_ne_zero n
    · obtain ⟨n, -, rfl⟩ := Option.map_eq_some_iff.mp h
      exact Nat.succ_ne_zero n
    · obtain ⟨n, -, rfl⟩ := Option.map_eq_some_iff.mp h
      exact Nat.succ_ne_zero n
    · cases h; exact Nat.one_ne_zero
    · cases h; exact Nat.succ_ne_zero _
    · exact plainLexeme?_size h

/-- A name without quotes starts where a word can start. -/
theorem wordRun_of_lexeme? (h : lexeme? cs = some l)
    (hkind : l.kind = .identifier) (hquote : l.quote = none) : wordRun cs ≠ 0 := by
  unfold lexeme? at h
  split at h
  · cases h
  · split_ifs at h
    -- blanks, a string, quoted names and markers are none
    · cases h; cases hkind
    · obtain ⟨n, -, rfl⟩ := Option.map_eq_some_iff.mp h
      cases hkind
    · obtain ⟨n, -, rfl⟩ := Option.map_eq_some_iff.mp h
      cases hquote
    · obtain ⟨n, -, rfl⟩ := Option.map_eq_some_iff.mp h
      cases hquote
    · cases h; cases hkind
    · cases h; cases hkind
    · exact fun hzero => (plainLexeme?_kind h).2 hzero hkind

theorem isName_of_lexeme? (h : lexeme? cs = some l) (hkind : l.kind = .identifier) (hquote : l.quote = none) :
    IsName (String.ofList (cs.take l.size)) := by
  have hrun := wordRun_of_lexeme? h hkind hquote
  obtain ⟨gs, hgs, htake, hlength⟩ := take_segmentsRun cs.length (cs.drop (wordRun cs))
  have hword := isWord_take_wordRun hrun
  obtain ⟨c, cs, rfl, hc⟩ : ∃ c tail, cs = c :: tail ∧ isWordStart c = true := by
    cases cs with
    | nil => exact absurd rfl hrun
    | cons c cs =>
      by_cases hc : isWordStart c = true
      · exact ⟨c, cs, rfl, hc⟩
      · exact absurd (if_neg hc) hrun
  rw [lexeme?_wordStart hc] at h
  split_ifs at h with hmore hreserved <;> cases h
  · refine ⟨_, gs, ?_, hword, hgs, fun hnil => absurd (hlength.symm.trans ?_) hmore⟩
    · rw [String.toList_ofList, List.take_add, htake]
    · rw [hnil]; rfl
  · cases hkind
  · exact ⟨_, [], by simp [dotted, String.toList_ofList], hword, nofun, fun _ => by simpa using hreserved⟩

theorem parameter_of_lexeme? (h : lexeme? cs = some l) (hkind : l.kind = .parameter) :
    cs.take l.size = ['?'] ∨ ∃ n, cs.take l.size = ':' :: n ∧ isWord n = true := by
  unfold lexeme? at h
  split at h
  · cases h
  · split_ifs at h with _ _ _ _ hq hc hrun
    · cases h; cases hkind
    · obtain ⟨m, -, rfl⟩ := Option.map_eq_some_iff.mp h
      cases hkind
    · obtain ⟨m, -, rfl⟩ := Option.map_eq_some_iff.mp h
      cases hkind
    · obtain ⟨m, -, rfl⟩ := Option.map_eq_some_iff.mp h
      cases hkind
    · cases h
      exact .inl (by rw [hq]; rfl)
    · cases h
      exact .inr ⟨_, by rw [hc, List.take_succ_cons], isWord_take_wordRun hrun⟩
    · exact absurd hkind (plainLexeme?_kind h).1

/-- A quoted name is told by its first character. -/
theorem lexeme?_quote (h : lexeme? (c :: cs) = some l) :
    (c ≠ '\x22' ∧ c ≠ '\x60' ∧ l.quote = none)
      ∨ (c = '\x22' ∧ ∃ n, closing? c cs = some n ∧ l = ⟨.identifier, n + 1, some c⟩)
      ∨ (c = '\x60' ∧ ∃ n, upTo? c cs = some n ∧ l = ⟨.identifier, n + 1, some c⟩) := by
  by_cases hquoted : c = '\x22'
  · subst hquoted
    obtain ⟨n, hn, rfl⟩ := Option.map_eq_some_iff.mp h
    exact .inr (.inl ⟨rfl, n, hn, rfl⟩)
  · by_cases hback : c = '\x60'
    · subst hback
      obtain ⟨n, hn, rfl⟩ := Option.map_eq_some_iff.mp h
      exact .inr (.inr ⟨rfl, n, hn, rfl⟩)
    · refine .inl ⟨hquoted, hback, ?_⟩
      rw [lexeme?] at h
      split_ifs at h
      · cases h; rfl
      · obtain ⟨n, -, rfl⟩ := Option.map_eq_some_iff.mp h
        rfl
      · cases h; rfl
      · cases h; rfl
      · exact plainLexeme?_quote h

/-- Only names have quotes that are taken off. -/
theorem of_quote (h : lexeme? (c :: cs) = some l) (hquote : l.quote ≠ none) : l.kind = .identifier := by
  rcases lexeme?_quote h with ⟨-, -, hnone⟩ | ⟨-, n, -, rfl⟩ | ⟨-, n, -, rfl⟩
  · exact absurd hnone hquote
  · rfl
  · rfl

/-! ## Scanning -/

variable {text : String} {ts : List Token} {t : Token}

theorem byteSize_eq (cs : List Char) : byteSize cs = String.utf8Len cs := by
  induction cs with
  | nil => rfl
  | cons c cs ih => rw [byteSize, String.utf8Len_cons, ih, Nat.add_comm]

theorem byteSize_toList (s : String) : byteSize s.toList = s.utf8ByteSize := by
  rw [byteSize_eq, ← String.utf8ByteSize_ofList, String.ofList_toList]

theorem byteSize_append (cs ds : List Char) : byteSize (cs ++ ds) = byteSize cs + byteSize ds := by
  rw [byteSize_eq, byteSize_eq, byteSize_eq, String.utf8Len_append]

section

-- nothing here depends on which lexeme stands at the head
attribute [local irreducible] lexeme?

theorem scanFrom_nil (offset n : Nat) : scanFrom offset n [] = .ok [] := by
  cases n <;> rfl

theorem scanFrom_cons (offset : Nat) (c : Char) (cs : List Char) :
    scanFrom offset 0 (c :: cs) = match lexeme? (c :: cs) with
      | none => .error ⟨"Unrecognized character",
          ⟨.unknown, String.ofList [c], offset, offset + c.utf8Size⟩⟩
      | some l =>
        let slice := (c :: cs).take l.size
        let stop := offset + byteSize slice
        match scanFrom stop (l.size - 1) cs with
        | .ok tokens => .ok (⟨l.kind, l.text slice, offset, stop⟩ :: tokens)
        | .error e => .error e :=
  rfl

theorem scanFrom_skip (offset : Nat) : ∀ (n : Nat) (cs : List Char),
    scanFrom offset n cs = scanFrom offset 0 (cs.drop n)
  | 0, cs => by rw [List.drop_zero]
  | n + 1, [] => by rw [List.drop_nil, scanFrom_nil, scanFrom_nil]
  | n + 1, c :: cs => scanFrom_skip offset n cs

/-- The token that a lexeme at the head of a text makes, the text starting at byte `offset`. -/
def Lexeme.token (l : Lexeme) (offset : Nat) (cs : List Char) : Token :=
  ⟨l.kind, l.text (cs.take l.size), offset, offset + byteSize (cs.take l.size)⟩

theorem drop_size (h : lexeme? (c :: cs) = some l) : (c :: cs).drop l.size = cs.drop (l.size - 1) := by
  obtain ⟨n, hn⟩ := Nat.exists_eq_succ_of_ne_zero (size_ne_zero h)
  rw [hn, List.drop_succ_cons, Nat.succ_sub_one]

/-- One token is scanned, and then the rest. -/
theorem scanFrom_step (h : lexeme? cs = some l) {offset : Nat}
    (hrest : scanFrom (l.token offset cs).stop 0 (cs.drop l.size) = .ok ts) :
    scanFrom offset 0 cs = .ok (l.token offset cs :: ts) := by
  obtain ⟨c, cs, rfl⟩ := List.exists_cons_of_ne_nil (ne_nil_of_lexeme? h)
  rw [drop_size h, ← scanFrom_skip] at hrest
  rw [scanFrom_cons, h]
  simp only [Lexeme.token] at hrest ⊢
  rw [hrest]

theorem scanFrom_lexeme {slice rest : List Char} (h : lexeme? (slice ++ rest) = some l)
    (hsize : l.size = slice.length) {offset : Nat}
    (hrest : scanFrom (offset + byteSize slice) 0 rest = .ok ts) :
    scanFrom offset 0 (slice ++ rest)
      = .ok (⟨l.kind, l.text slice, offset, offset + byteSize slice⟩ :: ts) := by
  have htoken : l.token offset (slice ++ rest) = ⟨l.kind, l.text slice, offset, offset + byteSize slice⟩ := by
    rw [Lexeme.token, hsize, List.take_left]
  rw [← htoken]
  refine scanFrom_step h ?_
  rw [htoken, hsize, List.drop_left]
  exact hrest

/-- A run of the scanner: from a byte and the text there to another, with the tokens it finds. -/
inductive Finds : Nat → List Char → List Token → Nat → List Char → Prop
  | nil {offset : Nat} {cs : List Char} : Finds offset cs [] offset cs
  | cons {offset stop : Nat} {cs rest : List Char} {l : Lexeme} {ts : List Token} :
    lexeme? cs = some l → Finds (l.token offset cs).stop (cs.drop l.size) ts stop rest →
    Finds offset cs (l.token offset cs :: ts) stop rest

/-- A run ends with the text, or before a character at which no lexeme starts. -/
def Ends (offset : Nat) (cs : List Char) : Except ParseError (List Token) → Prop
  | .ok ts => ∃ stop, Finds offset cs ts stop []
  | .error e => ∃ ts stop c rest, Finds offset cs ts stop (c :: rest) ∧ lexeme? (c :: rest) = none
      ∧ e = ⟨"Unrecognized character", ⟨.unknown, String.ofList [c], stop, stop + c.utf8Size⟩⟩

/-- **The scanner finds one lexeme after the other**, up to where its run ends. -/
theorem ends_scanFrom (cs : List Char) : ∀ offset n : Nat, Ends offset (cs.drop n) (scanFrom offset n cs) := by
  induction cs with
  | nil =>
    intro offset n
    rw [scanFrom_nil, List.drop_nil]
    exact ⟨offset, .nil⟩
  | cons c cs ih =>
    intro offset n
    cases n with
    | succ n => exact ih offset n
    | zero =>
      rw [scanFrom_cons, List.drop_zero]
      cases hl : lexeme? (c :: cs) with
      | none => exact ⟨[], offset, c, cs, .nil, hl, rfl⟩
      | some l =>
        have hrest := ih (l.token offset (c :: cs)).stop (l.size - 1)
        rw [← drop_size hl] at hrest
        simp only [Lexeme.token] at hrest ⊢
        cases hs : scanFrom (offset + byteSize ((c :: cs).take l.size)) (l.size - 1) cs with
        | ok ts =>
          rw [hs] at hrest
          obtain ⟨stop, hfinds⟩ := hrest
          exact ⟨stop, .cons hl hfinds⟩
        | error e =>
          rw [hs] at hrest
          obtain ⟨ts, stop, d, rest, hfinds, hnone, he⟩ := hrest
          exact ⟨_ :: ts, stop, d, rest, .cons hl hfinds, hnone, he⟩

theorem finds_scan (h : scan text = .ok ts) : ∃ stop, Finds 0 text.toList ts stop [] := by
  have hends := ends_scanFrom text.toList 0 0
  rw [scan] at h
  rwa [h, List.drop_zero] at hends

/-- **Every token that is found is the lexeme at its place.** -/
theorem Finds.of_mem {offset stop : Nat} {cs rest : List Char}
    (h : Finds offset cs ts stop rest) (ht : t ∈ ts) :
    ∃ before cs' l, cs = before ++ cs' ∧ lexeme? cs' = some l ∧ t = l.token (offset + byteSize before) cs' := by
  induction h with
  | nil => cases ht
  | @cons offset stop cs rest l ts hl _ ih =>
    rcases List.mem_cons.mp ht with rfl | ht
    · exact ⟨[], cs, l, rfl, hl, rfl⟩
    · obtain ⟨before, cs', l', hcs, hl', rfl⟩ := ih ht
      refine ⟨cs.take l.size ++ before, cs', l', ?_, hl', ?_⟩
      · rw [List.append_assoc, ← hcs, List.take_append_drop]
      · rw [byteSize_append, ← Nat.add_assoc]
        rfl

theorem of_mem_scan (h : scan text = .ok ts) (ht : t ∈ ts) :
    ∃ c cs l, lexeme? (c :: cs) = some l ∧ t.kind = l.kind ∧ t.text = l.text ((c :: cs).take l.size)
      ∧ t.stop = t.start + byteSize ((c :: cs).take l.size) := by
  obtain ⟨stop, hfinds⟩ := finds_scan h
  obtain ⟨before, cs, l, -, hl, rfl⟩ := hfinds.of_mem ht
  obtain ⟨c, cs, rfl⟩ := List.exists_cons_of_ne_nil (ne_nil_of_lexeme? hl)
  exact ⟨c, cs, l, hl, rfl, rfl, rfl⟩

end

/-! ## The plain vocabulary -/

theorem undoubleChars_sublist (q : Char) (cs : List Char) :
    (Text.undoubleChars q cs).Sublist cs := by
  fun_induction Text.undoubleChars q cs with
  | case1 => exact .slnil
  | case2 a => exact .refl _
  | case3 a b cs h ih =>
    obtain ⟨rfl, rfl⟩ := h
    exact (ih.cons_cons _).cons _
  | case4 a b cs h ih => exact ih.cons_cons _

/-- A quoted name: its quotes are taken off, so its text is shorter than its place. -/
def isQuoted (t : Token) : Bool := t.kind == .identifier && t.text.utf8ByteSize < t.stop - t.start

/-- A literal that is no string. -/
def isNumber (t : Token) : Bool := t.kind == .literal && t.text.toList.head? != some '\x27'

/-- Digits that write a number of 64 bits with a sign. -/
def isPlainInteger (t : Token) : Bool :=
  t.text.toList.all Char.isDigit && Text.natOfDigits t.text.toList < 0x8000000000000000

/-- The name of a token that is not quoted. -/
theorem isName_of_mem_scan (h : scan text = .ok ts)
    (ht : t ∈ ts) (hkind : t.kind = .identifier) (hquoted : t.isQuoted = false) : IsName t.text := by
  obtain ⟨c, cs, l, hl, hk, htext, hstop⟩ := of_mem_scan h ht
  have hquote : l.quote = none := by
    by_contra hquote
    obtain ⟨n, hn⟩ := Nat.exists_eq_succ_of_ne_zero (size_ne_zero hl)
    obtain ⟨q, hq⟩ := Option.ne_none_iff_exists'.mp hquote
    rw [hn, List.take_succ_cons] at htext hstop
    have hle : String.utf8Len (Text.undoubleChars q (cs.take n).dropLast) ≤ String.utf8Len (cs.take n) :=
      String.utf8Len_le_of_sublist ((undoubleChars_sublist q _).trans (List.dropLast_sublist _))
    have hpos : 0 < c.utf8Size := c.utf8Size_pos
    rw [byteSize, byteSize_eq] at hstop
    simp only [isQuoted, hkind, beq_self_eq_true, Bool.true_and, decide_eq_false_iff_not, htext,
      Lexeme.text, hq, List.drop_succ_cons, List.drop_zero, String.utf8ByteSize_ofList] at hquoted
    omega
  have hname := isName_of_lexeme? hl (hk.symm.trans hkind) hquote
  rwa [htext, Lexeme.text, hquote]

/-- A marker in a text is a `?`, or a word after a colon. -/
theorem parameter_of_mem_scan (h : scan text = .ok ts) (ht : t ∈ ts) (hkind : t.kind = .parameter) :
    t.text = "?" ∨ ∃ n, t.text.toList = ':' :: n ∧ isWord n = true := by
  obtain ⟨c, cs, l, hl, hk, htext, -⟩ := of_mem_scan h ht
  have hquote : l.quote = none := by
    by_contra hquote
    exact absurd ((of_quote hl hquote).symm.trans (hk.symm.trans hkind)) (by decide)
  rw [Lexeme.text, hquote] at htext
  rcases parameter_of_lexeme? hl (hk.symm.trans hkind) with htake | ⟨n, htake, hword⟩
  · exact .inl (by rw [htext, htake])
  · exact .inr ⟨n, by rw [htext, htake, String.toList_ofList], hword⟩

theorem isWord_of_mem_scan {n : List Char}
    (h : scan text = .ok ts) (ht : t ∈ ts) (hkind : t.kind = .parameter) (hn : t.text.toList = ':' :: n) :
    isWord n = true := by
  rcases parameter_of_mem_scan h ht hkind with hq | ⟨m, hm, hword⟩
  · rw [hq] at hn
    cases hn
  · rw [hn] at hm
    cases hm
    exact hword

theorem isName_append {s t : String} (hs : IsName s) {w : List Char} {gs : List (List Char)}
    (ht : t.toList = w ++ dotted gs) (hw : isSegment w = true) (hgs : ∀ g ∈ gs, isSegment g = true) :
    IsName (s ++ "." ++ t) := by
  obtain ⟨v, fs, hs, hv, hfs, -⟩ := hs
  refine ⟨v, fs ++ w :: gs, ?_, hv, ?_, fun hnil => absurd hnil (by simp)⟩
  · simp only [String.toList_append, hs, ht, dotted, List.flatMap_append, List.flatMap_cons]
    simp
  · simp only [List.forall_mem_append, List.forall_mem_cons]
    exact ⟨hfs, hw, hgs⟩

end Token

/-- A literal that is read back as it is written. -/
def Literal.IsPlain : Literal → Prop
  | .int n => n.natAbs < 0x8000000000000000
  | .float _ => False
  | _ => True

theorem Literal.IsPlain.negate {l l' : Literal} (hl : l.IsPlain) (h : l.negate? = some l') : l'.IsPlain := by
  cases l with
  | int n =>
    rw [Literal.negate?] at h
    split at h <;> cases h
    rwa [Literal.IsPlain, Int.natAbs_neg]
  | float x => exact hl.elim
  | _ => cases h

/-- The literal of a token that is a string or a number of digits alone. -/
theorem Token.isPlain_of_isPlainInteger {t : Token} {l : Literal} (hkind : t.kind = .literal)
    (hnumber : t.isNumber = true → t.isPlainInteger = true) (hl : Literal.ofToken? t.text = some l) :
    l.IsPlain := by
  by_cases hquote : t.text.toList.head? = some '\x27'
  · unfold Literal.ofToken? at hl
    split at hl
    · cases hl
      trivial
    · next hno =>
      cases hcs : t.text.toList with
      | nil => rw [hcs] at hquote; cases hquote
      | cons c cs =>
        rw [hcs] at hquote
        exact absurd (by rw [hcs, Option.some.inj hquote]) (hno cs)
  · have hplain := hnumber (by simp [Token.isNumber, hkind, hquote])
    simp only [Token.isPlainInteger, Bool.and_eq_true, List.all_eq_true, decide_eq_true_eq] at hplain
    by_cases hnil : t.text.toList = []
    · simp [Literal.ofToken?, hnil] at hl
    · have hint := Token.ofToken?_digits hplain.1 hnil hplain.2
      rw [String.ofList_toList, hl] at hint
      cases hint
      exact hplain.2

/-- Names without quotes, and numbers of digits alone. -/
def Vocabulary.plain : Vocabulary where
  word := Token.IsName
  call := Token.IsName
  name := Token.IsName
  parameter n := Token.isWord n.toList = true
  literal := Literal.IsPlain
  name_word := id
  name_segment := by
    rintro s t hs ⟨w, gs, ht, hw, hgs, -⟩
    exact Token.isName_append hs ht (by simp [Token.isSegment, hw]) hgs
  name_wildcard {s} hs := @Token.isName_append s "*" hs ['*'] [] rfl rfl nofun
  literal_bool _ := trivial
  literal_null := trivial
  literal_negate := Literal.IsPlain.negate

/-- **The tokens of a text without quoted names and with plain numbers** belong to the plain vocabulary. -/
theorem Vocabulary.admits_plain {text : String} {ts : List Token} {t : Token}
    (h : Token.scan text = .ok ts) (ht : t ∈ ts) (hquoted : t.isQuoted = false)
    (hnumber : t.isNumber = true → t.isPlainInteger = true) : Vocabulary.plain.Admits t where
  word hkind := Token.isName_of_mem_scan h ht hkind hquoted
  call hkind := Token.isName_of_mem_scan h ht hkind hquoted
  parameter hkind n hn := by
    show Token.isWord (String.ofList n).toList = true
    rw [String.toList_ofList]
    exact Token.isWord_of_mem_scan h ht hkind hn
  literal hkind _ hl := Token.isPlain_of_isPlainInteger hkind hnumber hl

end EntitySql
