import Mathlib
import EntitySql.Proofs.Parsed
import EntitySql.Proofs.Clauses
import EntitySql.Proofs.Spelling

/-!
# Printing and reading queries

A text that is scanned as the tokens of a query is read as that query, provided its markers are
numbered the way they are read (`Query.ofText_of_lays`). What was read from a text without quoted
names and with plain numbers is such a query, and its own text is scanned that way.

* **`Query.ofText_text`**: printing a query that was read, and reading it again, gives the same query.
-/

namespace EntitySql

open Sign Parse

variable {N : Lettering} {V : Vocabulary}

/-- A text that is scanned as signs is read as what its reader makes of them. -/
theorem Parse.run_of_lays {p : Rules → Parse α} {text : String} {ps : List Sign} {a : α}
    (hp : ∀ n, ps.length ≤ n → Reads (p (Rules.upTo n)) ps a []) (hlays : Lays text ps)
    (hmarks : Mark.Sequence 0 (Sign.marks ps)) : Parse.run (Parse.nested p) text = .ok a := by
  have hscans : Token.Scans (text.toList ++ []) (ps ++ []) := hlays.scans .nil .nil
  rw [List.append_nil, List.append_nil] at hscans
  obtain ⟨ts, hts, hof⟩ := hscans 0
  let c : Cursor := ⟨[], ts.filter fun t => t.kind != .whitespace, Token.atEnd text.utf8ByteSize, 0⟩
  have hc : c.At ps := ⟨hof, hmarks, rfl⟩
  have hcursor : Cursor.ofText text = .ok c := by
    rw [Cursor.ofText, Token.scan, hts]
  obtain ⟨d, hd, -⟩ := hp (c.after.length + 1) (hc.length ▸ Nat.le_succ _) c hc
  have hrun : Parse.nested p c = .ok a d := hd
  rw [Parse.run, hcursor]
  simp only [hrun]

/-- **A text that is scanned as the tokens of a query is read as that query.** -/
theorem Query.ofText_of_lays (hN : N.Legible V) {q : Query} (hq : q.Shaped V) {text : String}
    (hlays : Lays text (q.signs N)) (hmarks : Mark.Sequence 0 (q.collect markers)) :
    Query.ofText text = .ok q :=
  Parse.run_of_lays (fun n hn => Grammar.reads_query (Rules.recovers_upTo hN n) hn hq) hlays
    (q.marks_signs (N := N) ▸ hmarks)

/-- A name starts like a word. -/
theorem Token.not_isName_of_head {s : String} {c : Char} {cs : List Char} (hs : s.toList = c :: cs)
    (hc : Token.isWordStart c = false) : ¬ Token.IsName s := by
  rintro ⟨w, gs, hw, hword, -⟩
  obtain ⟨d, ds, rfl, hd, -⟩ := Token.isWord_cons hword
  rw [hs, List.cons_append] at hw
  rw [(List.cons.inj hw).1, hd] at hc
  cases hc

/-- Names that need no quotes are read back as they are printed. -/
theorem Lettering.legible_plain : Lettering.plain.Legible .plain where
  reads {s _} _ hrest := Grammar.reads_identifier s [] hrest
  atom {s} _ := ⟨s, [], rfl, .nil⟩
  star := Token.not_isName_of_head (show "*".toList = ['*'] from rfl) rfl
  literal := id

/-- **Printing undoes reading**: a query that was read from a text without quoted names, and whose
numbers are digits that fit 64 bits, is read again from its own text, with every node, alias, relation
of a join and number of a `?`. -/
theorem Query.ofText_text {text : String} {ts : List Token} {q : Query}
    (h : Query.ofText text = .ok q) (hts : Token.scan text = .ok ts)
    (hquoted : ∀ t ∈ ts, t.isQuoted = false)
    (hnumber : ∀ t ∈ ts, t.isNumber = true → t.isPlainInteger = true) :
    Query.ofText q.text = .ok q := by
  obtain ⟨hmarks, hshaped⟩ := Query.ofText_shaped h hts fun t ht =>
    Vocabulary.admits_plain hts ht (hquoted t ht) (hnumber t ht)
  refine Query.ofText_of_lays Lettering.legible_plain hshaped hshaped.lays ?_
  rw [hmarks]
  exact Token.sequence_marksFrom ts 0

/-- A query with more parentheses than it needs. -/
def nestedText : String :=
  "select distinct u.id as a, - (- x) from User u left join u.posts p "
    ++ "where not ((a + 1) * 2 in (1)) and (b = ? or c is not null) "
    ++ "union all select case a when :n then 'it''s' else ? end from (select 1) d limit ? offset 2"

/-- `nestedText` as it is printed. -/
def nestedPrint : String :=
  "SELECT DISTINCT u.id AS a, -(-x) FROM User u LEFT JOIN u.posts p "
    ++ "WHERE NOT (a + 1) * 2 IN (1) AND (b = ? OR c IS NOT NULL) "
    ++ "UNION ALL SELECT CASE a WHEN :n THEN 'it''s' ELSE ? END FROM (SELECT 1) d LIMIT ? OFFSET 2"

theorem Query.ofText_text_nested :
    ∃ q, Query.ofText nestedText = .ok q ∧ q.text = nestedPrint ∧ Query.ofText nestedPrint = .ok q := by
  have hread : Query.text <$> Query.ofText nestedText = .ok nestedPrint
      ∧ (List.all · fun t => !t.isQuoted && (!t.isNumber || t.isPlainInteger))
        <$> Token.scan nestedText = .ok true := by
    unfold nestedText
    rw [← String.ofList_append, ← String.ofList_append, Query.ofText_ofList, Token.scan, String.toList_ofList]
    decide +kernel
  obtain ⟨q, hq, htext⟩ := Outcome.map_eq_ok.mp hread.1
  obtain ⟨ts, hts, hplain⟩ := Outcome.map_eq_ok.mp hread.2
  have hquoted : ∀ t ∈ ts, t.isQuoted = false := fun t ht => by
    have h := List.all_eq_true.mp hplain t ht
    simp only [Bool.and_eq_true, Bool.not_eq_true'] at h
    exact h.1
  have hnumber : ∀ t ∈ ts, t.isNumber = true → t.isPlainInteger = true := fun t ht hnumber => by
    have h := List.all_eq_true.mp hplain t ht
    simpa [hnumber] using (Bool.and_eq_true_iff.mp h).2
  exact ⟨q, hq, htext, htext ▸ ofText_text hq hts hquoted hnumber⟩

end EntitySql
