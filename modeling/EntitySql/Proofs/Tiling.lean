import Mathlib
import EntitySql.Proofs.Lexing

/-!
# Tokens tile the text

The tokens of a text stand side by side and leave nothing out, and each of them depends on its own
characters only: no length that the scanner measures looks further than its own end, so the slice of
a token is scanned alone as it is scanned in the text.

* `Token.Settled`: a length that what follows does not change.
* `Token.lexeme?_take`: a lexeme is found in its own characters.
* `Token.Tiling`: what it means for tokens to tile a text, and `Token.tiling_scan`.
-/

namespace EntitySql.Token

/-! ## Lengths that look no further than their end -/

/-- A length at the head of a text that what follows does not change. -/
def Settled (run : List Char → Nat) : Prop :=
  ∀ (cs : List Char) (m : Nat), run cs ≤ m → run (cs.take m) = run cs

theorem length_takeWhile_take (p : Char → Bool) (cs : List Char) (m : Nat) :
    ((cs.take m).takeWhile p).length = min m (cs.takeWhile p).length := by
  rw [← List.take_takeWhile, List.length_take]

theorem settled_digitRun : Settled digitRun := by
  intro cs m h
  rw [digitRun, length_takeWhile_take]
  exact min_eq_right h

theorem settled_wordRun : Settled wordRun := by
  intro cs m h
  cases cs with
  | nil => rw [List.take_nil]
  | cons c cs =>
    cases m with
    | zero => exact (Nat.le_zero.mp h).symm
    | succ m =>
      rw [wordRun] at h
      rw [List.take_succ_cons, wordRun, wordRun]
      split_ifs at h ⊢
      · rw [length_takeWhile_take, min_eq_right (Nat.le_of_succ_le_succ h)]
      · rfl

/-- What stands after `k` characters that count only together with it. -/
theorem Settled.rest {run : List Char → Nat} (h : Settled run) {cs : List Char} {m k : Nat}
    (hle : (if run cs = 0 then 0 else run cs + k) ≤ m + k) : run (cs.take m) = run cs := by
  refine h cs m ?_
  split_ifs at hle <;> omega

theorem decimalRun_cons (c : Char) (cs : List Char) :
    decimalRun (c :: cs) = if c = '.' then if digitRun cs = 0 then 0 else digitRun cs + 1 else 0 := by
  split_ifs with hc hzero
  · rw [hc, decimalRun, if_pos hzero]
  · rw [hc, decimalRun, if_neg hzero]
  · unfold decimalRun
    split
    · next heq => exact absurd (List.cons.inj heq).1 hc
    · rfl

theorem settled_decimalRun : Settled decimalRun := by
  intro cs m h
  cases cs with
  | nil => rw [List.take_nil]
  | cons c cs =>
    cases m with
    | zero => exact (Nat.le_zero.mp h).symm
    | succ m =>
      rw [decimalRun_cons] at h
      rw [List.take_succ_cons, decimalRun_cons, decimalRun_cons]
      by_cases hc : c = '.'
      · rw [if_pos hc] at h
        rw [settled_digitRun.rest h]
      · rw [if_neg hc, if_neg hc]

theorem settled_exponentRun : Settled exponentRun := by
  intro cs m h
  cases cs with
  | nil => rw [List.take_nil]
  | cons c cs =>
    cases cs with
    | nil => cases m <;> simp [exponentRun]
    | cons d cs =>
      rw [exponentRun] at h ⊢
      by_cases hc : c = 'e' ∨ c = 'E'
      · rw [if_pos hc] at h ⊢
        cases m with
        | zero => exact (Nat.le_zero.mp h).symm
        | succ m =>
          cases m with
          | zero => 
            show 0 = _
            split_ifs at h ⊢ <;> omega
          | succ m =>
            rw [List.take_succ_cons, List.take_succ_cons, exponentRun, if_pos hc]
            by_cases hd : d = '+' ∨ d = '-'
            · rw [if_pos hd] at h
              rw [if_pos hd, if_pos hd, settled_digitRun.rest h]
            · rw [if_neg hd] at h
              have hdigits := settled_digitRun.rest h
              rw [List.take_succ_cons] at hdigits
              rw [if_neg hd, if_neg hd, hdigits]
      · rw [if_neg hc]
        cases m with
        | zero => rfl
        | succ m =>
          cases m with
          | zero => rfl
          | succ m => rw [List.take_succ_cons, List.take_succ_cons, exponentRun, if_neg hc]

theorem settled_numberRun : Settled numberRun := by
  intro cs m h
  unfold numberRun at h ⊢
  by_cases hzero : digitRun cs = 0
  · simp only [settled_digitRun cs m (hzero ▸ Nat.zero_le m), if_pos hzero]
  · simp only [if_neg hzero] at h ⊢
    have hwhole := settled_digitRun cs m (by omega)
    have hdecimals := settled_decimalRun (cs.drop (digitRun cs)) (m - digitRun cs) (by omega)
    have hexponent := settled_exponentRun (cs.drop (digitRun cs + decimalRun (cs.drop (digitRun cs))))
      (m - (digitRun cs + decimalRun (cs.drop (digitRun cs)))) (by omega)
    simp only [hwhole, if_neg hzero, List.drop_take, hdecimals, hexponent]

/-- A single character is a symbol or none. -/
theorem symbolRun_singleton (c : Char) : symbolRun [c] =
    if ['(', ')', ',', '.', '*', '+', '-', '/', '%', '=', '<', '>', ';'].contains c then 1 else 0 := by
  unfold symbolRun
  split <;> simp_all

/-- A symbol is settled by its own characters. -/
theorem symbolRun_take (cs : List Char) : symbolRun (cs.take (symbolRun cs)) = symbolRun cs := by
  fun_cases symbolRun cs with
  | case1 tail => rfl
  | case2 tail => rfl
  | case3 tail => rfl
  | case4 tail => rfl
  | case5 tail => rfl
  | case6 c tail _ _ _ _ _ hc => rw [List.take_succ_cons, List.take_zero, symbolRun_singleton, if_pos hc]
  | case7 c tail => rfl
  | case8 => rfl

/-! ## Quotes -/

variable {q : Char} {cs : List Char} {n : Nat} {l : Lexeme}

theorem closing?_eq_some (h : closing? q cs = some n) :
    ∃ inner rest, cs = twice q inner ++ q :: rest ∧ n = (twice q inner).length + 1 := by
  fun_induction closing? q cs generalizing n with
  | case1 => cases h
  | case2 => cases h; exact ⟨[], [], rfl, rfl⟩
  | case3 c hc => cases h
  | case4 cs k hk ih =>
    cases h
    obtain ⟨inner, rest, hcs, hlength⟩ := ih hk
    exact ⟨q :: inner, rest, by simp [twice, hcs], by simp [twice, hlength]⟩
  | case5 cs hnone ih =>
    cases h
    exact ⟨[], q :: cs, rfl, rfl⟩
  | case6 d cs hd =>
    cases h
    exact ⟨[], d :: cs, rfl, rfl⟩
  | case7 c d cs hc ih =>
    obtain ⟨k, hk, rfl⟩ := Option.map_eq_some_iff.mp h
    obtain ⟨inner, rest, hcs, hlength⟩ := ih hk
    exact ⟨c :: inner, rest, by simp [twice, hcs, hc], by simp [twice, hlength, hc]⟩

theorem closing?_take (h : closing? q cs = some n) : closing? q (cs.take n) = some n := by
  obtain ⟨inner, rest, rfl, rfl⟩ := closing?_eq_some h
  rw [List.take_length_add_append]
  exact closing?_twice (by simp) inner

theorem upTo?_eq_some (h : upTo? q cs = some n) :
    ∃ inner rest, cs = inner ++ q :: rest ∧ q ∉ inner ∧ n = inner.length + 1 := by
  induction cs generalizing n with
  | nil => cases h
  | cons c cs ih =>
    rw [upTo?] at h
    split_ifs at h with hc
    · cases h
      exact ⟨[], cs, by rw [hc]; rfl, List.not_mem_nil, rfl⟩
    · obtain ⟨k, hk, rfl⟩ := Option.map_eq_some_iff.mp h
      obtain ⟨inner, rest, rfl, hinner, rfl⟩ := ih hk
      exact ⟨c :: inner, rest, rfl, by simp [hinner, Ne.symm hc], rfl⟩

theorem upTo?_take (h : upTo? q cs = some n) : upTo? q (cs.take n) = some n := by
  induction cs generalizing n with
  | nil => cases h
  | cons c cs ih =>
    rw [upTo?] at h
    split_ifs at h with hc
    · cases h
      exact if_pos hc
    · obtain ⟨k, hk, rfl⟩ := Option.map_eq_some_iff.mp h
      rw [List.take_succ_cons, upTo?, if_neg hc, ih hk]
      rfl

/-! ## A lexeme is found in its own characters -/

/-- The characters of a word or a dotted name, and which of the two they make. -/
theorem lexeme?_name {c : Char} (hc : isWordStart c = true)
    (h : lexeme? (c :: cs) = some l) : ∃ w gs, isWord w = true ∧ (∀ g ∈ gs, isSegment g = true)
      ∧ (c :: cs).take l.size = w ++ dotted gs ∧ l =
        { kind := if gs = [] ∧ isReserved (String.ofList w) = true then .keyword else .identifier
          size := (w ++ dotted gs).length } := by
  have hrun : wordRun (c :: cs) ≠ 0 := by
    rw [wordRun, if_pos hc]
    exact Nat.succ_ne_zero _
  obtain ⟨gs, hgs, htake, hlength⟩ :=
    take_segmentsRun (c :: cs).length ((c :: cs).drop (wordRun (c :: cs)))
  have hw : ((c :: cs).take (wordRun (c :: cs))).length = wordRun (c :: cs) :=
    List.length_take_of_le (wordRun_le _)
  rw [lexeme?_wordStart hc, ← hlength] at h
  rw [← hlength] at htake
  refine ⟨_, gs, isWord_take_wordRun hrun, hgs, ?_⟩
  rw [List.length_append, hw]
  cases gs with
  | nil =>
    rw [if_neg (by simp [dotted])] at h
    split_ifs at h with hreserved <;> cases h <;> simp [dotted, hreserved]
  | cons g gs =>
    have hne : (dotted (g :: gs)).length ≠ 0 := by simp [dotted]
    rw [if_pos hne] at h
    cases h
    exact ⟨by rw [List.take_add, htake], by simp⟩

theorem plainLexeme?_take (h : plainLexeme? cs = some l)
    (hword : wordRun cs = 0) : plainLexeme? (cs.take l.size) = some l := by
  unfold plainLexeme? at h
  by_cases hnumber : numberRun cs = 0
  · simp only [hnumber, hword, ne_eq, not_true_eq_false, if_false, if_true, Lexeme.ofSize?] at h
    split_ifs at h with hsymbol
    cases h
    simp only [plainLexeme?, settled_numberRun cs _ (hnumber ▸ Nat.zero_le _), hnumber,
      settled_wordRun cs _ (hword ▸ Nat.zero_le _), hword, symbolRun_take, Lexeme.ofSize?, ne_eq,
      not_true_eq_false, if_false, if_true, if_neg hsymbol]
  · rw [if_pos hnumber] at h
    cases h
    simp only [plainLexeme?, settled_numberRun cs _ le_rfl, ne_eq, hnumber, not_false_eq_true, if_true]

/-- **A lexeme is found in its own characters**, whatever follows them in the text. -/
theorem lexeme?_take (h : lexeme? cs = some l) : lexeme? (cs.take l.size) = some l := by
  obtain ⟨c, cs, rfl⟩ := List.exists_cons_of_ne_nil (ne_nil_of_lexeme? h)
  by_cases hstart : isWordStart c = true
  · obtain ⟨w, gs, hw, hgs, htake, hl⟩ := lexeme?_name hstart h
    rw [htake, ← List.append_nil (w ++ dotted gs), lexeme?_dotted hw hgs .nil, hl]
  · obtain ⟨n, hn⟩ := Nat.exists_eq_succ_of_ne_zero (size_ne_zero h)
    have hcons : (c :: cs).take l.size = c :: cs.take n := by rw [hn, Nat.succ_eq_add_one, List.take_succ_cons]
    -- the first character, which the slice has too, decides between the kinds
    rw [lexeme?] at h
    rw [hcons, lexeme?]
    split_ifs at h ⊢ with hblank hstring hquoted hback hmark hcolon hrun hrun'
    · cases h
      rw [length_takeWhile_take, ← Nat.succ.inj hn, min_self]
    · obtain ⟨k, hk, rfl⟩ := Option.map_eq_some_iff.mp h
      rw [← Nat.succ.inj hn, closing?_take hk]
      rfl
    · obtain ⟨k, hk, rfl⟩ := Option.map_eq_some_iff.mp h
      rw [← Nat.succ.inj hn, closing?_take hk]
      rfl
    · obtain ⟨k, hk, rfl⟩ := Option.map_eq_some_iff.mp h
      rw [← Nat.succ.inj hn, upTo?_take hk]
      rfl
    · exact h
    · cases h
      rw [← Nat.succ.inj hn, settled_wordRun cs _ le_rfl] at hrun
      exact absurd hrun hrun'
    · cases h
      rw [← Nat.succ.inj hn, settled_wordRun cs _ le_rfl]
    · have hword : wordRun (c :: cs) = 0 := by rw [wordRun, if_neg hstart]
      rw [← hcons]
      exact plainLexeme?_take h hword

/-! ## How tokens are written -/

/-- The characters that write a token: a quoted name stands between its quotes, with each double quote
in it doubled, and all else is written as it is. -/
inductive Writes (t : Token) (slice : String) : Prop
  | plain : (∀ q ∈ ['\x22', '\x60'], slice.toList.head? ≠ some q) → slice = t.text → Writes t slice
  | doubleQuoted : t.kind = .identifier → slice = "\x22" ++ Text.doubled '\x22' t.text ++ "\x22" →
    Writes t slice
  | backQuoted : t.kind = .identifier → '\x60' ∉ t.text.toList → slice = "\x60" ++ t.text ++ "\x60" →
    Writes t slice

theorem twice_of_not_mem (h : q ∉ cs) : twice q cs = cs := by
  induction cs with
  | nil => rfl
  | cons c cs ih =>
    have hc : c ≠ q := (List.ne_of_not_mem_cons h).symm
    have ih := ih (List.not_mem_of_not_mem_cons h)
    rw [twice] at ih ⊢
    rw [List.flatMap_cons, if_neg hc, ih, List.singleton_append]

/-- A quoted name: what its token takes of the text, and what of that is its text. -/
theorem token_quoted (q : Char) (inner rest : List Char) (offset : Nat) :
    (q :: (twice q inner ++ q :: rest)).take ((twice q inner).length + 1 + 1) = q :: (twice q inner ++ [q])
      ∧ (Lexeme.token ⟨.identifier, (twice q inner).length + 1 + 1, some q⟩ offset
          (q :: (twice q inner ++ q :: rest))).text = String.ofList inner := by
  have hslice : (q :: (twice q inner ++ q :: rest)).take ((twice q inner).length + 1 + 1) =
      q :: (twice q inner ++ [q]) := by
    rw [List.take_succ_cons, List.take_length_add_append]
    rfl
  refine ⟨hslice, ?_⟩
  simp only [Lexeme.token, Lexeme.text, hslice, List.drop_succ_cons, List.drop_zero, List.dropLast_concat,
    undoubleChars_twice]

theorem writes_token (h : lexeme? cs = some l) (offset : Nat) :
    (l.token offset cs).Writes (String.ofList (cs.take l.size)) := by
  obtain ⟨c, cs, rfl⟩ := List.exists_cons_of_ne_nil (ne_nil_of_lexeme? h)
  obtain ⟨n, hn⟩ := Nat.exists_eq_succ_of_ne_zero (size_ne_zero h)
  rcases lexeme?_quote h with ⟨hdouble, hback, hnone⟩ | ⟨rfl, k, hk, rfl⟩ | ⟨rfl, k, hk, rfl⟩
  · refine .plain (fun q hq hhead => ?_) (by simp only [Lexeme.token, Lexeme.text, hnone])
    rw [String.toList_ofList, hn, Nat.succ_eq_add_one, List.take_succ_cons, List.head?_cons] at hhead
    cases hhead
    simp only [List.mem_cons, List.not_mem_nil, or_false] at hq
    exact hq.elim hdouble hback
  · obtain ⟨inner, rest, rfl, rfl⟩ := closing?_eq_some hk
    obtain ⟨hslice, htext⟩ := token_quoted '\x22' inner rest offset
    refine .doubleQuoted rfl (String.toList_injective ?_)
    rw [htext, hslice]
    simp [toList_doubled]
  · obtain ⟨inner, rest, rfl, hinner, rfl⟩ := upTo?_eq_some hk
    obtain ⟨hslice, htext⟩ := token_quoted '\x60' inner rest offset
    rw [twice_of_not_mem hinner] at hslice htext
    refine .backQuoted rfl ?_ (String.toList_injective ?_)
    · rwa [htext, String.toList_ofList]
    · rw [htext, hslice]
      simp

/-! ## The tiling -/

/-- Tokens side by side, from one byte to another. -/
def Contiguous (start : Nat) (ts : List Token) (stop : Nat) : Prop :=
  start :: ts.map Token.stop = ts.map Token.start ++ [stop]

theorem Finds.contiguous {offset stop : Nat} {cs rest : List Char} {ts : List Token}
    (h : Finds offset cs ts stop rest) : Contiguous offset ts stop := by
  induction h with
  | nil => rfl
  | cons _ _ ih => exact congrArg (_ :: ·) ih

/-- A run takes from the text what its tokens cover. -/
theorem Finds.used {offset stop : Nat} {cs rest : List Char} {ts : List Token}
    (h : Finds offset cs ts stop rest) : ∃ used, cs = used ++ rest ∧ stop = offset + byteSize used := by
  induction h with
  | nil => exact ⟨[], rfl, rfl⟩
  | @cons offset stop cs rest l ts _ _ ih =>
    obtain ⟨used, hused, rfl⟩ := ih
    refine ⟨cs.take l.size ++ used, ?_, ?_⟩
    · rw [List.append_assoc, ← hused, List.take_append_drop]
    · rw [byteSize_append, ← Nat.add_assoc]
      rfl

/-- The slice of a text that a token takes. -/
structure Slice (text : String) (t : Token) (slice : String) : Prop where
  /-- It starts and stops between characters. -/
  place : ∃ before after, text = before ++ slice ++ after ∧ t.start = before.utf8ByteSize
    ∧ t.stop = (before ++ slice).utf8ByteSize
  nonempty : t.start < t.stop
  writes : t.Writes slice
  /-- By itself it is scanned as the same token. -/
  alone : scan slice = .ok [{ t with start := 0, stop := slice.utf8ByteSize }]

/-- Tokens that tile a text: side by side over all its bytes, each with a slice of its own. -/
structure Tiling (text : String) (ts : List Token) : Prop where
  contiguous : Contiguous 0 ts text.utf8ByteSize
  nil_iff : ts = [] ↔ text = ""
  slices : ∀ t ∈ ts, ∃ slice, Slice text t slice

theorem slice_token {text : String} {before cs : List Char} {l : Lexeme} (htext : text.toList = before ++ cs)
    (h : lexeme? cs = some l) :
    Slice text (l.token (byteSize before) cs) (String.ofList (cs.take l.size)) where
  place := by
    refine ⟨String.ofList before, String.ofList (cs.drop l.size), String.toList_injective ?_, ?_, ?_⟩
    · simp [htext]
    · rw [← byteSize_toList, String.toList_ofList]
      rfl
    · rw [← byteSize_toList, String.toList_append, String.toList_ofList, String.toList_ofList, byteSize_append]
      rfl
  nonempty := by
    obtain ⟨c, cs, rfl⟩ := List.exists_cons_of_ne_nil (ne_nil_of_lexeme? h)
    obtain ⟨n, hn⟩ := Nat.exists_eq_succ_of_ne_zero (size_ne_zero h)
    have hpos : 0 < c.utf8Size := c.utf8Size_pos
    simp only [Lexeme.token, hn, Nat.succ_eq_add_one, List.take_succ_cons, byteSize]
    omega
  writes := writes_token h _
  alone := by
    have hrest : (cs.take l.size).drop l.size = [] := List.drop_eq_nil_of_le (List.length_take_le _ _)
    have hscan := @scanFrom_step _ _ [] (lexeme?_take h) 0 (by rw [hrest, scanFrom_nil])
    rw [scan, String.toList_ofList, hscan, ← byteSize_toList, String.toList_ofList]
    simp only [Lexeme.token, List.take_take, min_self, Nat.zero_add]

/-- **The tokens of a text tile it.** -/
theorem tiling_scan {text : String} {ts : List Token} (h : scan text = .ok ts) : Tiling text ts := by
  obtain ⟨stop, hfinds⟩ := finds_scan h
  obtain ⟨used, hused, hstop⟩ := hfinds.used
  have hcontiguous := hfinds.contiguous
  rw [List.append_nil] at hused
  rw [Nat.zero_add, ← hused, byteSize_toList] at hstop
  rw [hstop] at hcontiguous
  refine ⟨hcontiguous, ⟨?_, ?_⟩, fun t ht => ?_⟩
  · rintro rfl
    have hsize : 0 = text.utf8ByteSize := (List.cons.inj hcontiguous).1
    exact String.utf8ByteSize_eq_zero_iff.mp hsize.symm
  · rintro rfl
    cases h
    rfl
  · obtain ⟨before, cs, l, htext, hl, rfl⟩ := hfinds.of_mem ht
    rw [Nat.zero_add]
    exact ⟨_, slice_token htext hl⟩

/-- A quoted name with a quote and a character of two bytes in it, and two more tokens. -/
def mixedText : String := "\x22é\x22\x22x\x22 >= :n"

def mixedTokens : List Token :=
  [⟨.identifier, "é\x22x", 0, 7⟩, ⟨.whitespace, " ", 7, 8⟩, ⟨.symbol, ">=", 8, 10⟩, ⟨.whitespace, " ", 10, 11⟩,
    ⟨.parameter, ":n", 11, 13⟩]

theorem tiling_scan_mixed : scan mixedText = .ok mixedTokens ∧ Tiling mixedText mixedTokens := by
  have hscan : scan mixedText = .ok mixedTokens := by decide +kernel
  exact ⟨hscan, tiling_scan hscan⟩

end EntitySql.Token
