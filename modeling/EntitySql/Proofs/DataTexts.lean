import Mathlib
import EntitySql.Proofs.Caching
import EntitySql.Value.Document
import EntitySql.Value.Text

/-!
# Data texts are read back

The text of a value is read as the document of that value, whatever comes behind it does not go on with a
number. Strings come back with every character, whether it was written as itself, by a short escape or by
its code; integers of 64 bits come back as integers. A document gives its value back where arrays and
objects do not nest deeper than is asked for.

* `Document.ofText?_of_exact`: the document that the text of a value holds.
* `Document.value?_ofValue`: when it gives the value back.
-/

namespace EntitySql

open Text (Reader)

namespace Text.Reader

variable {α β : Type} {cs cs' : List Char}

/-- A reader goes on behind what it has read. -/
theorem bind_of_some {x : Reader α} {f : α → Reader β} {a : α} (h : x cs = some (a, cs')) :
    (x >>= f) cs = f a cs' := by
  show StateT.bind x f cs = f a cs'
  rw [StateT.bind, h]
  rfl

theorem skip?_of_ne {c : Char} (h : ∀ d ∈ cs.head?, d ≠ c) : skip? c cs = some (false, cs) := by
  cases cs with
  | nil => rfl
  | cons d cs => exact if_neg (h d rfl)

/-- Digits are read up to their end. -/
theorem digits_append {ds rest : List Char} (hds : ∀ d ∈ ds, d.isDigit = true)
    (h : ∀ c ∈ rest.head?, c.isDigit = false) : digits (ds ++ rest) = some (ds, rest) := by
  rw [digits, List.takeWhile_append_of_pos hds, List.dropWhile_append_of_pos hds]
  cases rest with
  | nil => rw [List.takeWhile_nil, List.dropWhile_nil, List.append_nil]
  | cons c rest =>
    have hc : ¬ c.isDigit = true := by simp [h c rfl]
    rw [List.takeWhile_cons_of_neg hc, List.dropWhile_cons_of_neg hc, List.append_nil]

end Text.Reader

/-! ## Integers -/

namespace Numeral

open Text.Reader

/-- A character that can stand inside a number, behind its first digit. -/
def continues (c : Char) : Bool := c.isDigit || c == '.' || c == 'e' || c == 'E'

/-- What comes behind a number does not go on with it. -/
def Ends (rest : List Char) : Prop := ∀ c ∈ rest.head?, continues c = false

/-- An integer as it is written. -/
def ofInt : Int → Numeral
  | .ofNat n => { negative := false, whole := Nat.toDigits 10 n }
  | .negSucc n => { negative := true, whole := Nat.toDigits 10 (n + 1) }

variable {n : Nat} {rest : List Char}

theorem head?_toDigits (hn : n ≠ 0) : (Nat.toDigits 10 n).head? ≠ some '0' := by
  induction n using Nat.strong_induction_on with
  | _ n ih =>
    by_cases hlt : n < 10
    · rw [Nat.toDigits_of_lt_base hlt]
      interval_cases n <;> simp_all
    · rw [Nat.toDigits_of_base_le (by decide) (by omega), List.head?_append]
      obtain ⟨d, ds, hds⟩ := List.exists_cons_of_ne_nil (Nat.toDigits_ne_nil (n := n / 10) (b := 10))
      have hhead := ih (n / 10) (by omega) (by omega)
      rw [hds] at hhead ⊢
      exact hhead

/-- Integers are written without leading zeros. -/
theorem isWhole_toDigits (n : Nat) : isWhole (Nat.toDigits 10 n) = true := by
  by_cases hn : n = 0
  · subst hn
    rfl
  · have hhead := head?_toDigits hn
    obtain ⟨d, ds, hds⟩ := List.exists_cons_of_ne_nil (Nat.toDigits_ne_nil (n := n) (b := 10))
    rw [hds] at hhead ⊢
    unfold isWhole
    split
    · contradiction
    · rfl
    · simp_all
    · rfl

theorem isDigit_of_mem {d : Char} (h : d ∈ Nat.toDigits 10 n) : d.isDigit = true :=
  Nat.isDigit_of_mem_toDigits (by decide) (by decide) h

theorem Ends.ne (h : Ends rest) {c : Char} (hc : continues c = true) : ∀ d ∈ rest.head?, d ≠ c := by
  rintro d hd rfl
  rw [h d hd] at hc
  cases hc

theorem Ends.not_isDigit (h : Ends rest) : ∀ d ∈ rest.head?, d.isDigit = false := by
  intro d hd
  have hcontinues := h d hd
  simp only [continues, Bool.or_eq_false_iff] at hcontinues
  exact hcontinues.1.1.1

theorem fraction_of_ends (h : Ends rest) : fraction rest = some ([], rest) :=
  bind_of_some (skip?_of_ne (h.ne (by decide)))

theorem scale?_of_ends (h : Ends rest) : scale? rest = some (none, rest) :=
  (bind_of_some (skip?_of_ne (h.ne (by decide)))).trans (bind_of_some (skip?_of_ne (h.ne (by decide))))

/-- Digits are read as one number, up to their end. -/
theorem reader_of_sign {negative : Bool} {cs : List Char}
    (hsign : skip? '-' cs = some (negative, Nat.toDigits 10 n ++ rest)) (h : Ends rest) :
    reader cs = some (⟨negative, Nat.toDigits 10 n, [], none⟩, rest) := by
  have hdigits := digits_append (fun d hd => isDigit_of_mem (n := n) hd) h.not_isDigit
  have hwhole : checked isWhole (Nat.toDigits 10 n) rest = some (Nat.toDigits 10 n, rest) :=
    if_pos (isWhole_toDigits n)
  rw [reader, bind_of_some hsign, bind_of_some hdigits, bind_of_some hwhole,
    bind_of_some (fraction_of_ends h), bind_of_some (scale?_of_ends h)]
  rfl

/-- **A written integer is read back.** -/
theorem reader_toString (i : Int) (h : Ends rest) :
    reader ((toString i).toList ++ rest) = some (ofInt i, rest) := by
  cases i with
  | ofNat n =>
    refine reader_of_sign ?_ h
    show skip? '-' ((Nat.repr n).toList ++ rest) = _
    rw [Nat.repr, String.toList_ofList]
    refine skip?_of_ne fun d hd => ?_
    obtain ⟨c, cs, hcs⟩ := List.exists_cons_of_ne_nil (Nat.toDigits_ne_nil (n := n) (b := 10))
    have hdigit : c.isDigit = true := isDigit_of_mem (n := n) (hcs ▸ List.mem_cons_self)
    rw [hcs] at hd
    cases hd
    rintro rfl
    cases hdigit
  | negSucc n =>
    refine reader_of_sign ?_ h
    show skip? '-' (("-" ++ Nat.repr (n + 1)).toList ++ rest) = _
    rw [String.toList_append, List.append_assoc, Nat.repr, String.toList_ofList (l := Nat.toDigits 10 (n + 1))]
    rfl

theorem le_foldl_digits : ∀ (ds : List Char) (n : Nat),
    n ≤ ds.foldl (fun n c => 10 * n + (c.toNat - '0'.toNat)) n
  | [], _ => le_rfl
  | d :: ds, n => le_trans (by omega) (le_foldl_digits ds (10 * n + (d.toNat - '0'.toNat)))

/-- Digits that write a number of 64 bits are all taken. -/
theorem accumulate_of_le : ∀ (ds : List Char) (n : Nat),
    ds.foldl (fun n c => 10 * n + (c.toNat - '0'.toNat)) n ≤ limit →
    accumulate n ds = (ds.foldl (fun n c => 10 * n + (c.toNat - '0'.toNat)) n, [])
  | [], _, _ => rfl
  | d :: ds, n, h => by
    rw [accumulate, if_neg (Nat.not_lt.mpr ((le_foldl_digits ds _).trans h))]
    exact accumulate_of_le ds _ h

theorem accumulate_toDigits (h : n ≤ limit) : accumulate 0 (Nat.toDigits 10 n) = (n, []) := by
  have hvalue : (Nat.toDigits 10 n).foldl (fun n c => 10 * n + (c.toNat - '0'.toNat)) 0 = n :=
    Nat.ofDigitChars_ten_toDigits
  rw [accumulate_of_le _ 0 (hvalue.le.trans h), hvalue]

/-- **An integer of 64 bits is its own value.** -/
theorem value?_ofInt {i : Int} (hlow : -0x8000000000000000 ≤ i) (hhigh : i ≤ limit) :
    (ofInt i).value? = some (.int i) := by
  cases i with
  | ofNat n =>
    have hn : n ≤ limit := Int.ofNat_le.mp hhigh
    simp [value?, ofInt, accumulate_toDigits hn, integer]
  | negSucc n =>
    have hn : n + 1 ≤ 0x8000000000000000 := by omega
    have hinteger : integer true (n + 1) = .int (.negSucc n) := by
      rw [integer, if_pos rfl, if_neg (by omega)]
      rfl
    simp [value?, ofInt, accumulate_toDigits (hn.trans (by decide)), hinteger]

end Numeral

/-! ## Strings -/

namespace Document

open Value (escapeChar)

/-- A unit stands for a character: it is that character, or the code of it, which is a control character. -/
def Means (u : CodeUnit) (c : Char) : Prop := u = .inl c ∨ c.toNat < 0x20 ∧ u = .inr c.toNat

section

variable {cs : List Char}

theorem units_code {a b c d : Char} {n : Nat} (h : code? a b c d = some n) :
    units ('\\' :: 'u' :: a :: b :: c :: d :: cs) = (units cs).map fun p => (.inr n :: p.1, p.2) := by
  rw [units, h]
  cases units cs <;> rfl

theorem units_short {e c : Char} (h : escaped? e = some c) :
    units ('\\' :: e :: cs) = (units cs).map fun p => (.inl c :: p.1, p.2) := by
  rw [units, h]
  · cases units cs <;> rfl
  · rintro _ _ _ _ _ rfl
    cases h

theorem units_plain {c : Char} (hcontrol : ¬ c.toNat < 0x20) (hquote : c ≠ '\x22') (hslash : c ≠ '\\') :
    units (c :: cs) = (units cs).map fun p => (.inl c :: p.1, p.2) := by
  rw [units, if_neg hcontrol]
  · cases units cs <;> rfl
  · exact hquote
  · intros
    contradiction
  · intros
    contradiction

end

/-- An escaped character is read as a unit that stands for it. -/
theorem units_escapeChar (c : Char) : ∃ u, Means u c
    ∧ ∀ cs, units (escapeChar c ++ cs) = (units cs).map fun p => (u :: p.1, p.2) := by
  have hc := c.ofNat_toNat
  unfold escapeChar
  split
  case h_8 n _ _ _ _ _ _ _ =>
    split
    · next hcontrol =>
      have hcode : ∀ n < 0x20, code? '0' '0' (Value.hexDigit (n / 16)) (Value.hexDigit (n % 16)) = some n := by
        decide
      exact ⟨.inr c.toNat, .inr ⟨hcontrol, rfl⟩, fun cs => units_code (hcode _ hcontrol)⟩
    · next hcontrol =>
      refine ⟨.inl c, .inl rfl, fun cs => units_plain hcontrol ?_ ?_⟩
      · rintro rfl
        contradiction
      · rintro rfl
        contradiction
  all_goals
    next hn =>
    rw [hn] at hc
    exact ⟨.inl c, .inl rfl, fun cs => units_short (hc ▸ rfl)⟩

theorem units_escaped (rest : List Char) : ∀ cs : List Char, ∃ us, List.Forall₂ Means us cs
    ∧ units (cs.flatMap escapeChar ++ '\x22' :: rest) = some (us, rest)
  | [] => ⟨[], .nil, rfl⟩
  | c :: cs => by
    obtain ⟨u, hu, hread⟩ := units_escapeChar c
    obtain ⟨us, hus, hmore⟩ := units_escaped rest cs
    refine ⟨u :: us, .cons hu hus, ?_⟩
    rw [List.flatMap_cons, List.append_assoc, hread, hmore, Option.map_some]

theorem assemble_code {n : Nat} (h : n < 0x20) (us : List CodeUnit) :
    assemble (.inr n :: us) = (assemble us).map (Char.ofNat n :: ·) := by
  have hmap : (assemble us).map (Char.ofNat n :: ·) = (do return Char.ofNat n :: (← assemble us)) := by
    cases assemble us <;> rfl
  rw [hmap]
  -- a code that follows could be the second half of a pair
  match us with
  | [] | .inl _ :: _ => exact if_neg (by omega)
  | .inr _ :: _ => exact (if_neg (by omega)).trans (if_neg (by omega))

theorem assemble_of_means {us : List CodeUnit} {cs : List Char} (h : List.Forall₂ Means us cs) :
    assemble us = some cs := by
  induction h with
  | nil => rfl
  | @cons u c us cs hu _ ih =>
    rcases hu with rfl | ⟨hcontrol, rfl⟩
    · rw [assemble, ih]
      rfl
    · rw [assemble_code hcontrol, ih, Option.map_some, c.ofNat_toNat]

/-- **A quoted string is read back**, whatever its characters are. -/
theorem quoted_escaped (s : String) (rest : List Char) :
    quoted (s.toList.flatMap escapeChar ++ '\x22' :: rest) = some (some s, rest) := by
  obtain ⟨us, hus, hread⟩ := units_escaped rest s.toList
  rw [quoted, Text.Reader.bind_of_some hread, assemble_of_means hus]
  show some (some (String.ofList s.toList), rest) = _
  rw [String.ofList_toList]

end Document

/-! ## Values -/

mutual
/-- A value that data gives back as it is: its numbers are integers of 64 bits, and no object has a key
twice. -/
def Value.Exact : Value → Prop
  | .null | .bool _ | .string _ => True
  | .int n => -0x8000000000000000 ≤ n ∧ n ≤ Numeral.limit
  | .float _ => False
  | .array items => ItemsExact items
  | .object members => (Pairs.keys members).Nodup ∧ MembersExact members
def ItemsExact : List Value → Prop
  | [] => True
  | v :: vs => v.Exact ∧ ItemsExact vs
def MembersExact : List (String × Value) → Prop
  | [] => True
  | (_, v) :: ms => v.Exact ∧ MembersExact ms
end

theorem itemsExact_iff {vs : List Value} : ItemsExact vs ↔ ∀ v ∈ vs, v.Exact := by
  induction vs with
  | nil => simp [ItemsExact]
  | cons v vs ih => simp only [ItemsExact, ih, List.forall_mem_cons]

theorem membersExact_iff {ms : List (String × Value)} : MembersExact ms ↔ ∀ m ∈ ms, m.2.Exact := by
  induction ms with
  | nil => simp [MembersExact]
  | cons m ms ih => simp only [MembersExact, ih, List.forall_mem_cons]

mutual
/-- How deep arrays and objects nest. -/
def Value.depth : Value → Nat
  | .array items => itemsDepth items + 1
  | .object members => membersDepth members + 1
  | _ => 0
def itemsDepth : List Value → Nat
  | [] => 0
  | v :: vs => max v.depth (itemsDepth vs)
def membersDepth : List (String × Value) → Nat
  | [] => 0
  | (_, v) :: ms => max v.depth (membersDepth ms)
end

namespace Document

open Value (escapeChar)

mutual
/-- The document of a value without doubles. -/
def ofValue : Value → Document
  | .null | .float _ => .null
  | .bool b => .bool b
  | .int n => .number (.ofInt n)
  | .string s => .string s
  | .array items => .array (ofItems items)
  | .object members => .object (ofMembers members)
def ofItems : List Value → List Document
  | [] => []
  | v :: vs => ofValue v :: ofItems vs
def ofMembers : List (String × Value) → List (Option String × Document)
  | [] => []
  | (k, v) :: ms => (some k, ofValue v) :: ofMembers ms
end

theorem ofMembers_eq : ∀ ms : List (String × Value), ofMembers ms = ms.map fun m => (some m.1, ofValue m.2)
  | [] => rfl
  | (k, v) :: ms => by rw [ofMembers, ofMembers_eq ms, List.map_cons]

/-! ### Steps of the reader -/

section

variable {fuel : Nat} {c : Char} {cs cs' rest : List Char} {d : Document} {ds : List Document}
  {key : Option String} {ms : List (Option String × Document)}

/-- A character that a value can start with. -/
def opens (c : Char) : Bool := !isSpace c && c != ']' && c != '\x7d'

theorem dropWhile_of_opens (h : opens c = true) : (c :: cs).dropWhile isSpace = c :: cs := by
  simp only [opens, Bool.and_eq_true, Bool.not_eq_true'] at h
  exact List.dropWhile_cons_of_neg (by simp [h.1.1])

theorem opens_of_digit {c : Char} (h : c.isDigit = true ∨ c = '-') : opens c = true := by
  simp only [opens, isSpace, Bool.and_eq_true, Bool.not_eq_true', Bool.or_eq_false_iff, bne_iff_ne,
    beq_eq_false_iff_ne]
  refine ⟨⟨⟨⟨⟨?_, ?_⟩, ?_⟩, ?_⟩, ?_⟩, ?_⟩ <;> rintro rfl <;> simp at h

theorem reader_string (h : quoted cs = some (key, rest)) :
    reader (fuel + 1) ('\x22' :: cs) = some (.string key, rest) := by
  rw [reader, dropWhile_of_opens rfl]
  simp only [h]
  rfl

theorem reader_array (hc : opens c = true) (h : items fuel (c :: cs) = some (ds, rest)) :
    reader (fuel + 1) ('[' :: c :: cs) = some (.array ds, rest) := by
  rw [reader, dropWhile_of_opens rfl]
  simp only [dropWhile_of_opens hc]
  split
  · next heq =>
    cases heq
    cases hc
  · simp only [h]
    rfl

theorem reader_object (h : members fuel ('\x22' :: cs) = some (ms, rest)) :
    reader (fuel + 1) ('\x7b' :: '\x22' :: cs) = some (.object ms, rest) := by
  rw [reader, dropWhile_of_opens rfl]
  simp only [dropWhile_of_opens (c := '\x22') rfl]
  split
  · next heq => cases heq
  · simp only [h]
    rfl

theorem reader_number {n : Numeral} (hc : c.isDigit = true ∨ c = '-')
    (h : Numeral.reader (c :: cs) = some (n, rest)) :
    reader (fuel + 1) (c :: cs) = some (.number n, rest) := by
  rw [reader, dropWhile_of_opens (opens_of_digit hc)]
  split
  all_goals try next heq => cases heq; simp at hc
  simp only [h]
  rfl

theorem items_one (h : reader fuel cs = some (d, ']' :: rest)) : items (fuel + 1) cs = some ([d], rest) := by
  rw [items, h]
  rfl

theorem items_more (h : reader fuel cs = some (d, ',' :: cs')) (hmore : items fuel cs' = some (ds, rest)) :
    items (fuel + 1) cs = some (d :: ds, rest) := by
  rw [items, h]
  simp only [Option.bind_eq_bind, Option.bind_some, dropWhile_of_opens (c := ',') rfl, hmore]
  rfl

/-- A member after its key. -/
theorem members_of_key (hkey : quoted cs = some (key, ':' :: cs')) :
    members (fuel + 1) ('\x22' :: cs) = (do
      let (item, rest) ← reader fuel cs'
      match rest.dropWhile isSpace with
      | '\x7d' :: rest => return ([(key, item)], rest)
      | ',' :: rest =>
        let (more, rest) ← members fuel rest
        return ((key, item) :: more, rest)
      | _ => none) := by
  rw [members, dropWhile_of_opens rfl]
  simp only [hkey]
  rfl

theorem members_one (hkey : quoted cs = some (key, ':' :: cs'))
    (h : reader fuel cs' = some (d, '\x7d' :: rest)) :
    members (fuel + 1) ('\x22' :: cs) = some ([(key, d)], rest) := by
  rw [members_of_key hkey, h]
  rfl

theorem members_more (hkey : quoted cs = some (key, ':' :: cs')) {cs'' : List Char}
    (h : reader fuel cs' = some (d, ',' :: cs'')) (hmore : members fuel cs'' = some (ms, rest)) :
    members (fuel + 1) ('\x22' :: cs) = some ((key, d) :: ms, rest) := by
  rw [members_of_key hkey, h]
  simp only [Option.bind_eq_bind, Option.bind_some, dropWhile_of_opens (c := ',') rfl, hmore]
  rfl

end

/-! ### Texts of values -/

theorem toList_quoteText (s : String) :
    (Value.quoteText s).toList = '\x22' :: (s.toList.flatMap escapeChar ++ ['\x22']) := by
  simp [Value.quoteText]

theorem head_toString (i : Int) : ∃ c cs, (toString i).toList = c :: cs ∧ (c.isDigit = true ∨ c = '-') := by
  cases i with
  | ofNat n =>
    obtain ⟨c, cs, hcs⟩ := List.exists_cons_of_ne_nil (Nat.toDigits_ne_nil (n := n) (b := 10))
    refine ⟨c, cs, ?_, .inl (Numeral.isDigit_of_mem (n := n) (hcs ▸ List.mem_cons_self))⟩
    show (Nat.repr n).toList = c :: cs
    rw [Nat.repr, String.toList_ofList, hcs]
  | negSucc n =>
    refine ⟨'-', (Nat.repr (n + 1)).toList, ?_, .inr rfl⟩
    show ("-" ++ Nat.repr (n + 1)).toList = _
    rw [String.toList_append]
    rfl

theorem toList_array (v : Value) (vs : List Value) : (Value.array (v :: vs)).text.toList
    = '[' :: (v.text.toList ++ (Value.itemsText vs).toList) ++ [']'] := by
  simp [Value.text]

theorem toList_items (v : Value) (vs : List Value) : (Value.itemsText (v :: vs)).toList
    = ',' :: (v.text.toList ++ (Value.itemsText vs).toList) := by
  simp [Value.itemsText]

theorem toList_object (k : String) (v : Value) (ms : List (String × Value)) :
    (Value.object ((k, v) :: ms)).text.toList = '\x7b' :: ((Value.quoteText k).toList
      ++ ':' :: (v.text.toList ++ (Value.membersText ms).toList)) ++ ['\x7d'] := by
  simp [Value.text]

theorem toList_members (k : String) (v : Value) (ms : List (String × Value)) :
    (Value.membersText ((k, v) :: ms)).toList = ',' :: ((Value.quoteText k).toList
      ++ ':' :: (v.text.toList ++ (Value.membersText ms).toList)) := by
  simp [Value.membersText]

/-- The text of a value starts with a character of its own. -/
theorem head_text {v : Value} (h : v.Exact) : ∃ c cs, v.text.toList = c :: cs ∧ opens c = true := by
  match v, h with
  | .null, _ | .bool true, _ | .bool false, _ | .array [], _ | .object [], _ => exact ⟨_, _, rfl, rfl⟩
  | .int n, _ =>
    obtain ⟨c, cs, hcs, hc⟩ := head_toString n
    exact ⟨c, cs, hcs, opens_of_digit hc⟩
  | .string s, _ => exact ⟨_, _, toList_quoteText s, rfl⟩
  | .array (v :: vs), _ => exact ⟨_, _, toList_array v vs, rfl⟩
  | .object ((k, v) :: ms), _ => exact ⟨_, _, toList_object k v ms, rfl⟩

theorem ends_of_closing {c : Char} {rest : List Char} (h : Numeral.continues c = false) :
    Numeral.Ends (c :: rest) := by
  rintro _ ⟨⟩
  exact h

mutual
/-- **The text of a value is read as its document.** -/
theorem reader_text : ∀ (v : Value) (fuel : Nat) (rest : List Char), v.Exact →
    2 * v.text.toList.length ≤ fuel + 1 → Numeral.Ends rest →
    reader (fuel + 1) (v.text.toList ++ rest) = some (ofValue v, rest)
  | .null | .bool true | .bool false => fun _ _ _ _ _ => rfl
  | .float _ => nofun
  | .int n => fun fuel rest _ _ hrest => by
    obtain ⟨c, cs, hcs, hc⟩ := head_toString n
    have hread := Numeral.reader_toString n hrest
    rw [hcs] at hread
    rw [Value.text, hcs]
    exact reader_number hc hread
  | .string s => fun fuel rest _ _ _ => by
    rw [Value.text, toList_quoteText, List.cons_append, List.append_assoc]
    exact reader_string (quoted_escaped s rest)
  | .array items => fun fuel rest h hfuel _ => by
    have ih := items_text items
    cases items with
    | nil => rfl
    | cons v vs =>
      rw [toList_array] at hfuel ⊢
      have hitems : Document.items fuel ((v.text.toList ++ (Value.itemsText vs).toList) ++ ']' :: rest)
          = some (ofItems (v :: vs), rest) :=
        ih _ _ _ h (toList_items v vs) (by
          simp only [List.cons_append, List.length_cons, List.length_append, List.length_nil] at hfuel ⊢
          omega)
      obtain ⟨c, cs, hcs, hc⟩ := head_text h.1
      rw [hcs] at hitems ⊢
      simp only [List.cons_append, List.append_assoc, List.nil_append] at hitems ⊢
      exact reader_array hc hitems
  | .object ms => fun fuel rest h hfuel _ => by
    have ih := members_text ms
    cases ms with
    | nil => rfl
    | cons m ms =>
      obtain ⟨k, v⟩ := m
      rw [toList_object] at hfuel ⊢
      have hmembers : members fuel (((Value.quoteText k).toList ++ ':' :: (v.text.toList
          ++ (Value.membersText ms).toList)) ++ '\x7d' :: rest) = some (ofMembers ((k, v) :: ms), rest) :=
        ih _ _ _ h.2 (toList_members k v ms) (by
          simp only [List.cons_append, List.length_cons, List.length_append, List.length_nil] at hfuel ⊢
          omega)
      rw [toList_quoteText] at hmembers ⊢
      simp only [List.cons_append, List.append_assoc, List.nil_append] at hmembers ⊢
      exact reader_object hmembers
/-- The items of an array, as they stand behind a comma or the opening bracket. -/
theorem items_text : ∀ (vs : List Value) (fuel : Nat) (cs rest : List Char), ItemsExact vs →
    (Value.itemsText vs).toList = ',' :: cs → 2 * (cs.length + 1) ≤ fuel →
    items fuel (cs ++ ']' :: rest) = some (ofItems vs, rest)
  | [] => nofun
  | v :: vs => by
    intro fuel cs rest h htext hfuel
    obtain ⟨fuel, rfl⟩ : ∃ n, fuel = n + 2 := ⟨fuel - 2, by omega⟩
    have ih := items_text vs
    rw [toList_items] at htext
    obtain ⟨-, rfl⟩ := List.cons.inj htext
    rw [List.length_append] at hfuel
    rw [List.append_assoc]
    cases vs with
    | nil => exact items_one (reader_text v _ _ h.1 (by omega) (ends_of_closing (by decide)))
    | cons w ws =>
      rw [toList_items, List.length_cons] at hfuel
      rw [toList_items]
      exact items_more (reader_text v _ _ h.1 (by omega) (ends_of_closing (by decide)))
        (ih _ _ _ h.2 (toList_items w ws) (by omega))
/-- The members of an object, as they stand behind a comma or the opening brace. -/
theorem members_text : ∀ (ms : List (String × Value)) (fuel : Nat) (cs rest : List Char), MembersExact ms →
    (Value.membersText ms).toList = ',' :: cs → 2 * (cs.length + 1) ≤ fuel →
    members fuel (cs ++ '\x7d' :: rest) = some (ofMembers ms, rest)
  | [] => nofun
  | (k, v) :: ms => by
    intro fuel cs rest h htext hfuel
    obtain ⟨fuel, rfl⟩ : ∃ n, fuel = n + 2 := ⟨fuel - 2, by omega⟩
    have ih := members_text ms
    rw [toList_members, toList_quoteText] at htext
    obtain ⟨-, rfl⟩ := List.cons.inj htext
    have hkey := quoted_escaped k (':' :: (v.text.toList ++ (Value.membersText ms).toList ++ '\x7d' :: rest))
    simp only [List.cons_append, List.append_assoc, List.length_cons, List.length_append, List.nil_append]
      at hfuel hkey ⊢
    cases ms with
    | nil => exact members_one hkey (reader_text v _ _ h.1 (by omega) (ends_of_closing (by decide)))
    | cons m ms =>
      obtain ⟨l, w⟩ := m
      rw [toList_members, List.length_cons] at hfuel
      rw [toList_members] at hkey ⊢
      exact members_more hkey (reader_text v _ _ h.1 (by omega) (ends_of_closing (by decide)))
        (ih _ _ _ h.2 (toList_members l w ms) (by omega))
end

end Document

/-! ### Values of documents -/

/-- A map of distinct keys is the list that it is made from. -/
theorem Pairs.ofList_of_nodup {α : Type} {ps : List (String × α)} (h : (keys ps).Nodup) : ofList ps = ps := by
  have hfold : ∀ (ps m : List (String × α)), (keys (m ++ ps)).Nodup →
      ps.foldl (fun m p => insert p.1 p.2 m) m = m ++ ps := by
    intro ps
    induction ps with
    | nil =>
      intro m _
      exact (List.append_nil m).symm
    | cons p ps ih =>
      intro m hm
      have hnew : p.1 ∉ keys m := by
        rw [keys, List.map_append] at hm
        exact fun hmem => (List.nodup_append.mp hm).2.2 _ hmem _ List.mem_cons_self rfl
      rw [List.foldl_cons, insert_of_find?_none (find?_eq_none.mpr hnew), ih, List.append_assoc]
      · rfl
      · rwa [List.append_assoc]
  exact hfold ps [] h

namespace Document

mutual
/-- **A document gives its value back** exactly where it does not nest deeper than is asked for. -/
theorem value?_ofValue : ∀ (v : Value) (levels : Nat), v.Exact →
    (ofValue v).value? levels = if v.depth ≤ levels then some v else none
  | .null, _, _ | .bool _, _, _ | .string _, _, _ => rfl
  | .int _, _, h => Numeral.value?_ofInt h.1 h.2
  | .array _, 0, _ | .object _, 0, _ => rfl
  | .array items, l + 1, h => by
    rw [ofValue, value?, values?_ofItems items l h, Value.depth]
    by_cases hdepth : itemsDepth items ≤ l <;> simp [hdepth]
  | .object ms, l + 1, h => by
    rw [ofValue, value?, members?_ofMembers ms l h.2, Value.depth]
    by_cases hdepth : membersDepth ms ≤ l <;> simp [hdepth, Pairs.ofList_of_nodup h.1]
theorem values?_ofItems : ∀ (vs : List Value) (levels : Nat), ItemsExact vs →
    values? levels (ofItems vs) = if itemsDepth vs ≤ levels then some vs else none
  | [], _, _ => rfl
  | v :: vs, levels, h => by
    rw [ofItems, values?, value?_ofValue v levels h.1, values?_ofItems vs levels h.2, itemsDepth]
    by_cases hv : v.depth ≤ levels <;> by_cases hvs : itemsDepth vs ≤ levels <;> simp [hv, hvs]
theorem members?_ofMembers : ∀ (ms : List (String × Value)) (levels : Nat), MembersExact ms →
    members? levels (ofMembers ms) = if membersDepth ms ≤ levels then some ms else none
  | [], _, _ => rfl
  | (k, v) :: ms, levels, h => by
    rw [ofMembers, members?, value?_ofValue v levels h.1, members?_ofMembers ms levels h.2, membersDepth]
    by_cases hv : v.depth ≤ levels <;> by_cases hms : membersDepth ms ≤ levels <;> simp [hv, hms]
end

end Document

end EntitySql
