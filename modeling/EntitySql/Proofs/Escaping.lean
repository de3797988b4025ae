import Mathlib
import EntitySql.Proofs.Quoting
import EntitySql.Proofs.RoundTrip

/-!
# Quoted texts cannot be escaped

A database reads a quoted text up to the first quote that is not doubled; in MySQL a backslash also takes the
character after it out of the way. Whatever a string or a name holds, its quoted form is read as exactly that text and
ends with its own last quote, so nothing in it can become SQL.

* `Dialect.readQuoted`: a quoted text as a database reads it. `Dialect.readString` and `Dialect.readName` read string
  literals and dotted names with it.
* `Dialect.readQuoted_escaped`: doubling quotes, and backslashes where they escape, is undone by reading.
* **`Dialect.read_quoted`**: strings and names are read back from their quoted forms.
-/

namespace EntitySql.Dialect

open Token

/-! ## Reading quoted texts -/

/-- Whether a backslash in a string takes the next character as it is. -/
def escapes : Dialect → Bool
  | mysql => true
  | _ => false

/-- The text from behind an opening quote up to the quote that closes it, and what follows. Two quotes stand for
one. -/
def readQuoted (escapes : Bool) (quote : Char) : List Char → Option (List Char × List Char)
  | [] => none
  | [c] => if c = quote then some ([], []) else none
  | c :: d :: cs =>
    if escapes = true ∧ c = '\\' then (readQuoted escapes quote cs).map fun r => (d :: r.1, r.2)
    else if c ≠ quote then (readQuoted escapes quote (d :: cs)).map fun r => (c :: r.1, r.2)
    else if d = quote then (readQuoted escapes quote cs).map fun r => (quote :: r.1, r.2)
    else some ([], d :: cs)

/-- The string of the literal at the head of a text, and what follows. -/
def readString (d : Dialect) (text : String) : Option (String × String) :=
  match text.toList with
  | '\x27' :: cs => (readQuoted d.escapes '\x27' cs).map fun r => (String.ofList r.1, String.ofList r.2)
  | _ => none

variable {escapes : Bool} {quote : Char}

theorem length_lt_of_readQuoted {cs : List Char} {r : List Char × List Char}
    (h : readQuoted escapes quote cs = some r) : r.2.length < cs.length := by
  fun_induction readQuoted escapes quote cs generalizing r with
  | case1 => cases h
  | case2 => cases h; simp
  | case3 => cases h
  | case4 c d cs _ ih =>
    obtain ⟨r, hr, rfl⟩ := Option.map_eq_some_iff.mp h
    have hlt := ih hr
    simp only [List.length_cons]
    omega
  | case5 c d cs _ _ ih =>
    obtain ⟨r, hr, rfl⟩ := Option.map_eq_some_iff.mp h
    have hlt := ih hr
    simp only [List.length_cons] at hlt ⊢
    omega
  | case6 c cs _ _ ih =>
    obtain ⟨r, hr, rfl⟩ := Option.map_eq_some_iff.mp h
    have hlt := ih hr
    simp only [List.length_cons]
    omega
  | case7 => cases h; simp

/-- The segments of a text that is made of quoted segments with single dots between them. -/
def readSegments (quote : Char) : List Char → Option (List String)
  | [] => none
  | c :: cs =>
    if c ≠ quote then none
    else match _hread : readQuoted false quote cs with
      | some (s, []) => some [String.ofList s]
      | some (s, '.' :: rest) => (readSegments quote rest).map (String.ofList s :: ·)
      | _ => none
termination_by cs => cs.length
decreasing_by
  have hlt := length_lt_of_readQuoted _hread
  simp only [List.length_cons] at hlt ⊢
  omega

/-- The segments of a quoted name. -/
def readName (d : Dialect) (text : String) : Option (List String) := readSegments d.quoteMark text.toList

/-! ## Reading undoes quoting -/

/-- The characters between the quotes: backslashes are doubled where they escape, and then quotes. -/
def escaped (escapes : Bool) (quote : Char) (cs : List Char) : List Char :=
  twice quote (if escapes then twice '\\' cs else cs)

theorem escaped_cons (c : Char) (cs : List Char) : escaped escapes quote (c :: cs)
    = twice quote (if escapes = true ∧ c = '\\' then ['\\', '\\'] else [c]) ++ escaped escapes quote cs := by
  unfold escaped twice
  cases escapes with
  | false => simp
  | true => by_cases hc : c = '\\' <;> simp [hc]

theorem readQuoted_backslash (h : escapes = true) (d : Char) (cs : List Char) :
    readQuoted escapes quote ('\\' :: d :: cs) = (readQuoted escapes quote cs).map fun r => (d :: r.1, r.2) := by
  rw [readQuoted, if_pos ⟨h, rfl⟩]

theorem readQuoted_quotes (hquote : quote ≠ '\\') (cs : List Char) :
    readQuoted escapes quote (quote :: quote :: cs)
      = (readQuoted escapes quote cs).map fun r => (quote :: r.1, r.2) := by
  rw [readQuoted, if_neg fun h => hquote h.2, if_neg (not_not_intro rfl), if_pos rfl]

theorem readQuoted_other {c : Char} (hc : ¬ (escapes = true ∧ c = '\\')) (hquote : c ≠ quote) {cs : List Char}
    (hcs : cs ≠ []) :
    readQuoted escapes quote (c :: cs) = (readQuoted escapes quote cs).map fun r => (c :: r.1, r.2) := by
  obtain ⟨d, ds, rfl⟩ := List.exists_cons_of_ne_nil hcs
  rw [readQuoted, if_neg hc, if_pos hquote]

/-- A quote that is not doubled closes the text. -/
theorem readQuoted_closing (hquote : quote ≠ '\\') {rest : List Char} (hrest : rest.head? ≠ some quote) :
    readQuoted escapes quote (quote :: rest) = some ([], rest) := by
  cases rest with
  | nil => rw [readQuoted, if_pos rfl]
  | cons d ds =>
    have hd : d ≠ quote := fun h => hrest (by rw [h]; rfl)
    rw [readQuoted, if_neg fun h => hquote h.2, if_neg (not_not_intro rfl), if_neg hd]

/-- **A text is read back from its escaped form**, up to the quote that was put behind it. -/
theorem readQuoted_escaped (escapes : Bool) (hquote : quote ≠ '\\') {rest : List Char}
    (hrest : rest.head? ≠ some quote) (cs : List Char) :
    readQuoted escapes quote (escaped escapes quote cs ++ quote :: rest) = some (cs, rest) := by
  induction cs with
  | nil =>
    have hnil : escaped escapes quote [] = [] := by cases escapes <;> rfl
    rw [hnil, List.nil_append, readQuoted_closing hquote hrest]
  | cons c cs ih =>
    rw [escaped_cons, List.append_assoc]
    by_cases hc : escapes = true ∧ c = '\\'
    · have hbackslashes : twice quote ['\\', '\\'] = ['\\', '\\'] := by simp [twice, hquote.symm]
      rw [if_pos hc, hbackslashes, List.cons_append, List.singleton_append, readQuoted_backslash hc.1, ih, hc.2]
      rfl
    · rw [if_neg hc]
      by_cases hq : c = quote
      · have hquotes : twice quote [c] = [quote, quote] := by simp [twice, hq]
        rw [hquotes, List.cons_append, List.singleton_append, readQuoted_quotes hquote, ih, hq]
        rfl
      · have hsame : twice quote [c] = [c] := by simp [twice, hq]
        rw [hsame, List.singleton_append, readQuoted_other hc hq (by simp), ih]
        rfl

/-! ## Strings -/

theorem toList_quoteString (d : Dialect) (s : String) :
    (d.quoteString s).toList = '\x27' :: (escaped d.escapes '\x27' s.toList ++ ['\x27']) := by
  cases d with
  | generic => exact toList_quoted s
  | postgres => exact toList_quoted s
  | mysql =>
    show (Literal.quoted (Text.doubled '\\' s)).toList = _
    rw [toList_quoted, toList_doubled]
    rfl

/-- **The quoted form of a string is read as the string**, and ends where it was put to end. -/
theorem readString_quoteString (d : Dialect) (s : String) {rest : String} (hrest : rest.toList.head? ≠ some '\x27') :
    d.readString (d.quoteString s ++ rest) = some (s, rest) := by
  have hread := readQuoted_escaped d.escapes (by decide) hrest s.toList
  simp only [readString, String.toList_append, toList_quoteString, List.cons_append, List.append_assoc,
    List.nil_append, hread, Option.map_some, String.ofList_toList]

/-- The quoted form of a string is one token. -/
theorem scan_quoted (s : String) : scan (Literal.quoted s)
    = .ok [⟨.literal, Literal.quoted s, 0, (Literal.quoted s).utf8ByteSize⟩] := by
  have hlexeme := lexeme?_quoted s .nil
  have hscan := scanFrom_lexeme hlexeme rfl (scanFrom_nil (0 + byteSize _) 0)
  rw [List.append_nil, Nat.zero_add, byteSize_toList] at hscan
  rw [scan, hscan]
  simp [Lexeme.text]

/-- **The quoted form of a string is one literal token, read as the string**, where no backslash escapes. -/
theorem run_quoted (s : String) : Parse.run Grammar.literal (Literal.quoted s) = .ok (.string s) := by
  have hlays : Lays (Literal.quoted s) [.literal (Literal.quoted s)] := Lays.literal (l := .string s) trivial
  exact Parse.run_of_lays (p := fun _ => Grammar.literal)
    (fun n _ => Grammar.reads_constant (ofToken?_quoted s)) hlays trivial

/-! ## Names -/

theorem quoteMark_ne (d : Dialect) : d.quoteMark ≠ '\\' ∧ d.quoteMark ≠ '.' := by
  cases d <;> decide

theorem toList_quoteSegment (d : Dialect) {g : String} (h : g ≠ "*") :
    (d.quoteSegment g).toList = d.quoteMark :: (escaped false d.quoteMark g.toList ++ [d.quoteMark]) := by
  rw [quoteSegment, if_neg h]
  simp only [String.toList_append, toList_doubled]
  cases d <;> rfl

theorem readSegments_last (d : Dialect) {g : String} (hg : g ≠ "*") :
    readSegments d.quoteMark (d.quoteSegment g).toList = some [g] := by
  have hhead : ([] : List Char).head? ≠ some d.quoteMark := by simp
  have hread := readQuoted_escaped false d.quoteMark_ne.1 hhead g.toList
  rw [toList_quoteSegment d hg, readSegments, if_neg (not_not_intro rfl)]
  split
  · next heq =>
    rw [hread] at heq
    cases heq
    rw [String.ofList_toList]
  · next heq =>
    rw [hread] at heq
    cases heq
  · next hother _ => exact absurd hread (hother _)

theorem readSegments_more (d : Dialect) {g : String} (hg : g ≠ "*") (cs : List Char) :
    readSegments d.quoteMark ((d.quoteSegment g).toList ++ '.' :: cs)
      = (readSegments d.quoteMark cs).map (g :: ·) := by
  have hhead : ('.' :: cs).head? ≠ some d.quoteMark := fun h => d.quoteMark_ne.2 (Option.some.inj h).symm
  have hread := readQuoted_escaped false d.quoteMark_ne.1 hhead g.toList
  rw [toList_quoteSegment d hg, List.cons_append, List.append_assoc, List.singleton_append, readSegments,
    if_neg (not_not_intro rfl)]
  split
  · next heq =>
    rw [hread] at heq
    cases heq
  · next heq =>
    rw [hread] at heq
    cases heq
    rw [String.ofList_toList]
  · next _ hother => exact absurd hread (hother _ _)

/-- **The quoted form of a name is read as its segments.** -/
theorem readName_quoteIdentifier (d : Dialect) {name : String} (h : "*" ∉ Text.segments name) :
    d.readName (d.quoteIdentifier name) = some (Text.segments name) := by
  have hsegments : ∀ (gs : List String) (g : String), "*" ∉ g :: gs →
      readSegments d.quoteMark (Text.join "." ((g :: gs).map d.quoteSegment)).toList = some (g :: gs) := by
    intro gs
    induction gs with
    | nil => exact fun g hg => readSegments_last d fun heq => hg (heq ▸ List.mem_cons_self)
    | cons g' gs ih =>
      intro g hg
      rw [List.mem_cons, not_or] at hg
      have hdot : ".".toList = ['.'] := rfl
      rw [List.map_cons, Text.join_cons_of_ne_nil (by simp), String.toList_append, String.toList_append, hdot,
        List.append_assoc, List.singleton_append, readSegments_more d (Ne.symm hg.1), ih g' hg.2]
      rfl
  obtain ⟨g, gs, hname⟩ := List.exists_cons_of_ne_nil (Text.segments_ne_nil name)
  rw [readName, quoteIdentifier, hname]
  exact hsegments gs g (hname ▸ h)

/-! ## Quoted texts -/

/-- **Quoting cannot be escaped.** In every dialect the quoted form of a string is read as exactly that string, and
closes at its own last quote whatever else than a quote comes behind it. Where no backslash escapes, it is scanned as
one literal token, which is read as the string. The quoted form of a name without wildcards is read as its segments, with
single dots between them. -/
theorem read_quoted (d : Dialect) :
    (∀ s rest, rest.toList.head? ≠ some '\x27' → d.readString (d.quoteString s ++ rest) = some (s, rest))
      ∧ (∀ s, d ≠ .mysql →
        scan (d.quoteString s) = .ok [⟨.literal, d.quoteString s, 0, (d.quoteString s).utf8ByteSize⟩]
          ∧ Parse.run Grammar.literal (d.quoteString s) = .ok (.string s))
      ∧ (∀ name, "*" ∉ Text.segments name → d.readName (d.quoteIdentifier name) = some (Text.segments name)) := by
  refine ⟨fun s rest hrest => readString_quoteString d s hrest, fun s hd => ?_,
    fun name hname => readName_quoteIdentifier d hname⟩
  have hquoted : d.quoteString s = Literal.quoted s := by
    cases d with
    | generic => rfl
    | postgres => rfl
    | mysql => exact absurd rfl hd
  rw [hquoted]
  exact ⟨scan_quoted s, run_quoted s⟩

theorem read_quoted_injection :
    ("".toList.head? ≠ some '\x27' ∧ Dialect.postgres ≠ .mysql ∧ "*" ∉ Text.segments "a\"b.c")
      ∧ mysql.readString (mysql.quoteString "\\\x27 OR 1=1 -- ") = some ("\\\x27 OR 1=1 -- ", "")
      ∧ Parse.run Grammar.literal (postgres.quoteString "\x27\x27 OR TRUE") = .ok (.string "\x27\x27 OR TRUE")
      ∧ postgres.readName (postgres.quoteIdentifier "a\"b.c") = some (Text.segments "a\"b.c") := by
  have hread := (read_quoted .mysql).1 "\\\x27 OR 1=1 -- " "" (by decide)
  rw [String.append_empty] at hread
  exact ⟨⟨by decide, by decide, by decide⟩, hread, ((read_quoted .postgres).2.1 _ (by decide)).2,
    (read_quoted .postgres).2.2 _ (by decide)⟩

end EntitySql.Dialect
