import Mathlib
import EntitySql.Proofs.Operands

/-!
# Scanning a printed query

The text that a tree prints to is scanned as the tokens of the tree. A printed part ends in a token,
so what follows it has to start a new one (`Token.Boundary`). The parts that are put behind others
(`Trails`) do, as they start with a blank, a comma or a parenthesis.

* `Query.Shaped.lays`: the text of a query of plain vocabulary is scanned as its tokens.
-/

namespace EntitySql

open Sign

/-! ## Scanning signs of text -/

namespace Token

/-- Characters are scanned as tokens, wherever in a text they stand. -/
def Scans (cs : List Char) (ps : List Sign) : Prop :=
  ∀ offset, ∃ ts, scanFrom offset 0 cs = .ok ts
    ∧ List.Forall₂ Sign.Of (ts.filter fun t => t.kind != .whitespace) ps

theorem Scans.nil : Scans [] [] := fun offset => ⟨[], scanFrom_nil offset 0, .nil⟩

/-- One more lexeme at the head. -/
theorem Scans.lexeme {rest : List Char} {ps : List Sign} (h : Scans rest ps) {slice : List Char} {p : Sign}
    {l : Lexeme} (hl : lexeme? (slice ++ rest) = some l) (hsize : l.size = slice.length)
    (hof : l.kind = p.kind) (hkind : p.kind ≠ .whitespace) (htext : p.text = l.text slice) :
    Scans (slice ++ rest) (p :: ps) := by
  intro offset
  obtain ⟨ts, hts, hofs⟩ := h (offset + byteSize slice)
  refine ⟨_, scanFrom_lexeme hl hsize hts, ?_⟩
  rw [List.filter_cons_of_pos (by simpa [hof] using hkind)]
  exact .cons ⟨hof, htext.symm⟩ hofs

/-- One more token at the head. -/
theorem Scans.token {rest : List Char} {ps : List Sign} (h : Scans rest ps) (slice : List Char) (p : Sign)
    (hl : lexeme? (slice ++ rest) = some { kind := p.kind, size := slice.length })
    (hkind : p.kind ≠ .whitespace) (htext : p.text = String.ofList slice) :
    Scans (slice ++ rest) (p :: ps) :=
  h.lexeme hl rfl rfl hkind htext

/-- A blank at the head takes all blanks after it into one token. -/
theorem scanFrom_blank {c : Char} (hc : Text.isBlank c = true) (cs : List Char) (offset : Nat) :
    scanFrom offset 0 (c :: cs) = match
      scanFrom (offset + byteSize (c :: cs.takeWhile Text.isBlank)) 0 (cs.dropWhile Text.isBlank) with
      | .ok ts => .ok (⟨.whitespace, String.ofList (c :: cs.takeWhile Text.isBlank), offset,
          offset + byteSize (c :: cs.takeWhile Text.isBlank)⟩ :: ts)
      | .error e => .error e := by
  have htake : cs.take (cs.takeWhile Text.isBlank).length = cs.takeWhile Text.isBlank :=
    (List.prefix_iff_eq_take.mp (List.takeWhile_prefix _)).symm
  have hdrop : cs.drop (cs.takeWhile Text.isBlank).length = cs.dropWhile Text.isBlank := by
    have happ := List.take_append_drop (cs.takeWhile Text.isBlank).length cs
    rw [htake] at happ
    exact List.append_cancel_left (happ.trans List.takeWhile_append_dropWhile.symm)
  rw [scanFrom_cons, lexeme?, if_pos hc]
  cases hrest : scanFrom (offset + byteSize (c :: cs.takeWhile Text.isBlank)) 0 (cs.dropWhile Text.isBlank) with
  | ok ts =>
    simp only [List.take_succ_cons, htake, Nat.add_sub_cancel, Lexeme.text,
      scanFrom_skip _ (cs.takeWhile Text.isBlank).length, hdrop, hrest]
  | error e =>
    simp only [List.take_succ_cons, htake, Nat.add_sub_cancel,
      scanFrom_skip _ (cs.takeWhile Text.isBlank).length, hdrop, hrest]

/-- One blank more before tokens changes nothing. -/
theorem Scans.space {cs : List Char} {ps : List Sign} (h : Scans cs ps) : Scans (' ' :: cs) ps := by
  intro offset
  rw [scanFrom_blank rfl]
  cases cs with
  | nil =>
    obtain ⟨ts, hts, hof⟩ := h (offset + byteSize [' '])
    simp only [List.takeWhile_nil, List.dropWhile_nil, hts]
    exact ⟨_, rfl, by rwa [List.filter_cons_of_neg (by simp)]⟩
  | cons c cs =>
    by_cases hc : Text.isBlank c = true
    · obtain ⟨ts, hts, hof⟩ := h (offset + 1)
      have hbytes : offset + byteSize (' ' :: c :: cs.takeWhile Text.isBlank)
          = offset + 1 + byteSize (c :: cs.takeWhile Text.isBlank) := (Nat.add_assoc ..).symm
      rw [scanFrom_blank hc] at hts
      simp only [List.takeWhile_cons, hc, if_true, List.dropWhile_cons, hbytes]
      split at hts
      · cases hts
        rw [List.filter_cons_of_neg (by simp)] at hof
        exact ⟨_, rfl, by rwa [List.filter_cons_of_neg (by simp)]⟩
      · cases hts
    · obtain ⟨ts, hts, hof⟩ := h (offset + byteSize [' '])
      simp only [List.takeWhile_cons, hc, List.dropWhile_cons, Bool.false_eq_true, if_false, hts]
      exact ⟨_, rfl, by rwa [List.filter_cons_of_neg (by simp)]⟩

/-- A symbol that is always a token of its own. -/
theorem Scans.symbol {c : Char} {cs : List Char} {ps : List Sign} (h : Scans cs ps)
    (hc : c ∈ ['(', ')', ',', '-', '*', '.']) : Scans (c :: cs) (symbol (String.singleton c) :: ps) := by
  refine h.token [c] (.symbol (String.singleton c)) (lexeme?_symbol hc cs) nofun ?_
  rw [← String.singleton_eq_ofList]
  rfl

end Token

open Token (Scans Boundary)

/-- A text that is scanned as the given tokens wherever a boundary follows. -/
structure Lays (s : String) (ps : List Sign) : Prop where
  scans : ∀ {rest : List Char} {qs : List Sign}, Boundary rest → Scans rest qs →
    Scans (s.toList ++ rest) (ps ++ qs)

/-- A text that may stand directly after a token. -/
structure Trails (s : String) (ps : List Sign) : Prop extends Lays s ps where
  boundary : ∀ {rest : List Char}, Boundary rest → Boundary (s.toList ++ rest)

variable {s t : String} {ps qs : List Sign}

theorem Lays.append (hs : Lays s ps) (ht : Trails t qs) : Lays (s ++ t) (ps ++ qs) where
  scans hb h := by
    rw [String.toList_append, List.append_assoc, List.append_assoc]
    exact hs.scans (ht.boundary hb) (ht.scans hb h)

theorem Trails.append (hs : Trails s ps) (ht : Trails t qs) : Trails (s ++ t) (ps ++ qs) where
  toLays := hs.toLays.append ht
  boundary hb := by
    rw [String.toList_append, List.append_assoc]
    exact hs.boundary (ht.boundary hb)

theorem Trails.empty : Trails "" [] := ⟨⟨fun _ h => h⟩, fun hb => hb⟩

theorem Trails.space (h : Lays s ps) : Trails (" " ++ s) ps where
  scans hb hr := by
    rw [String.toList_append]
    exact (h.scans hb hr).space
  boundary _ := by
    rw [String.toList_append]
    exact .cons (by decide)

theorem Trails.comma (h : Lays s ps) : Trails (", " ++ s) (symbol "," :: ps) where
  scans hb hr := by
    rw [String.toList_append]
    exact (h.scans hb hr).space.symbol (by decide)
  boundary _ := by
    rw [String.toList_append]
    exact .cons (by decide)

theorem Trails.parens (h : Lays s ps) : Trails ("(" ++ s ++ ")") (parens ps) where
  scans hb hr := by
    have hclose := hr.symbol (c := ')') (by decide)
    have hopen := (h.scans (.cons (by decide)) hclose).symbol (c := '(') (by decide)
    simpa [Sign.parens] using hopen
  boundary _ := by
    rw [String.toList_append, String.toList_append]
    exact .cons (by decide)

theorem Lays.minus (h : Lays s ps) : Lays ("-" ++ s) (symbol "-" :: ps) where
  scans hb hr := by
    rw [String.toList_append]
    exact (h.scans hb hr).symbol (by decide)

/-! ## Single tokens -/

theorem Lays.single {p : Sign} (htext : p.text = s) (hkind : p.kind ≠ .whitespace)
    (hl : ∀ {rest}, Boundary rest →
      Token.lexeme? (s.toList ++ rest) = some { kind := p.kind, size := s.toList.length }) :
    Lays s [p] where
  scans hb hr := by
    refine hr.token s.toList p (hl hb) hkind ?_
    rw [htext, String.ofList_toList]

theorem Lays.name (h : Token.IsName s) : Lays s [.name s] := by
  obtain ⟨w, gs, hs, hw, hgs, hreserved⟩ := h
  refine .single rfl nofun fun hb => ?_
  rw [hs, Token.lexeme?_dotted hw hgs hb, if_neg]
  · rfl
  · rintro ⟨rfl, hw⟩
    have hsw : s = String.ofList w := by
      rw [← String.ofList_toList (s := s), hs, Token.dotted, List.flatMap_nil, List.append_nil]
    rw [← hsw, hreserved rfl] at hw
    cases hw

theorem isWord_keyword : ∀ w ∈ keywords, Token.isWord w.toList = true := by
  decide +kernel

theorem isReserved_keyword {w : String} (h : w ∈ keywords) : isReserved w = true :=
  List.any_eq_true.mpr ⟨w, h, beq_self_eq_true _⟩

theorem Lays.keyword (h : s ∈ keywords) : Lays s [.keyword s] := by
  have hw := isWord_keyword s h
  refine .single rfl nofun fun hb => ?_
  have hl := Token.lexeme?_dotted hw (List.forall_mem_nil _) hb
  rw [Token.dotted, List.flatMap_nil, List.append_nil, String.ofList_toList,
    if_pos ⟨rfl, isReserved_keyword h⟩] at hl
  exact hl

/-- The words of a phrase, with blanks between them. -/
theorem Lays.phrase : ∀ {ws : List String}, (∀ w ∈ ws, w ∈ keywords) →
    Lays (Text.join " " ws) (phrase ws)
  | [], _ => Trails.empty.toLays
  | [w], h => .keyword (h w List.mem_cons_self)
  | w :: v :: ws, h => by
    obtain ⟨hw, hws⟩ := List.forall_mem_cons.mp h
    rw [Text.join, String.append_assoc]
    · exact (Lays.keyword hw).append (Trails.space (Lays.phrase hws))
    · nofun

/-- A text after a phrase. -/
theorem Lays.opening (k : String) (ws : List String) (hws : ∀ w ∈ ws, w ∈ keywords)
    (hk : k = Text.join " " ws ++ " ") (hs : Lays s ps) : Lays (k ++ s) (Sign.phrase ws ++ ps) := by
  rw [hk, String.append_assoc]
  exact (Lays.phrase hws).append (.space hs)

/-- A clause after a phrase. -/
theorem Trails.clause (k : String) (ws : List String) (hws : ∀ w ∈ ws, w ∈ keywords)
    (hk : k = " " ++ Text.join " " ws ++ " ") (hs : Lays s ps) : Trails (k ++ s) (Sign.phrase ws ++ ps) := by
  rw [hk, String.append_assoc, String.append_assoc]
  exact .space ((Lays.phrase hws).append (.space hs))

theorem Lays.symbol (h : s ∈ ["=", "!=", "<", "<=", ">", ">=", "+", "-", "*", "/", "%", "||"]) :
    Lays s [.symbol s] :=
  .single rfl nofun fun hb => Token.lexeme?_operator hb h

theorem Lays.words (ws : List String) (h : ∀ w ∈ ws, w ∈ keywords) (hs : s = Text.join " " ws) :
    Lays s (Sign.phrase ws) := by
  rw [hs]
  exact .phrase h

theorem Lays.operator (op : Operator) : Lays op.text op.signs := by
  cases op with
  | arith op => cases op <;> exact .symbol (by decide)
  | logic op => cases op <;> exact .words _ (by decide) rfl
  | compare op =>
    cases op <;> first
      | exact .symbol (by decide)
      | exact .words _ (by decide) rfl

theorem Lays.digits (n : Nat) : Lays n.repr [.literal n.repr] := by
  have hdigits : ∀ d ∈ n.repr.toList, d.isDigit = true := by
    intro d hd
    rw [Nat.repr, String.toList_ofList] at hd
    exact Nat.isDigit_of_mem_toDigits (by decide) (by decide) hd
  have hne : n.repr ≠ "" := Nat.repr_ne_empty
  exact .single rfl nofun fun hb =>
    Token.lexeme?_digits hdigits (fun h => hne (String.toList_eq_nil_iff.mp h)) hb

theorem Lays.literal {l : Literal} (h : l.IsPlain) : Lays l.text l.signs := by
  cases l with
  | string s => exact .single rfl nofun fun hb => Token.lexeme?_quoted s hb
  | int n =>
    cases n with
    | ofNat n => exact .digits n
    | negSucc n => exact (Lays.digits (n + 1)).minus
  | float x => exact h.elim
  | bool b => cases b <;> exact .words _ (by decide) rfl
  | null => exact .words _ (by decide) rfl

theorem Lays.anonymous (m : Marker) : Lays "?" [.anonymous m] :=
  .single rfl nofun fun _ => rfl

theorem Lays.named {m : NamedMarker} (h : Token.isWord m.name.toList = true) :
    Lays (":" ++ m.name) [.named m] := by
  have hlist : (":" ++ m.name).toList = ':' :: m.name.toList := String.toList_append
  refine .single rfl nofun fun {rest} hb => ?_
  have hrun := Token.wordRun_append h (Token.dotted_takeWhile [] hb)
  obtain ⟨c, cs, hcs, -⟩ := Token.isWord_cons h
  rw [hlist, List.cons_append]
  simp only [Token.dotted, List.flatMap_nil, List.nil_append] at hrun
  show (if Token.wordRun (m.name.toList ++ rest) = 0 then none else _) = _
  rw [hrun, if_neg (by rw [hcs]; simp)]
  rfl

/-! ## Signs of a tree -/

theorem Lays.wrap (b : Bool) (h : Lays s ps) : Lays (wrap b s) (wrapSigns b ps) := by
  cases b with
  | false => exact h
  | true => exact (Trails.parens h).toLays

/-- A minus before an operand, which stands in parentheses if it starts with a minus itself. -/
theorem Lays.negated {b negative : Bool} (h : Lays s ps)
    (hneg : b = false → (s.toList.head? = some '-' ↔ negative = true)) :
    Lays (minusText (EntitySql.wrap b s)) (Sign.symbol "-" :: wrapSigns (b || negative) ps) := by
  have hparens : "-(" ++ s ++ ")" = "-" ++ ("(" ++ s ++ ")") := by
    rw [← String.append_assoc, ← String.append_assoc]
    rfl
  cases b with
  | true =>
    have hlist : (EntitySql.wrap true s).toList = '(' :: (s ++ ")").toList := by
      rw [EntitySql.wrap, if_pos rfl, String.append_assoc, String.toList_append]
      rfl
    rw [minusText, hlist]
    exact (h.wrap true).minus
  | false =>
    have hneg := hneg rfl
    show Lays (minusText s) (Sign.symbol "-" :: wrapSigns negative ps)
    unfold minusText
    split
    · next hs =>
      rw [hneg.mp (by rw [hs]; rfl), hparens]
      exact (h.wrap true).minus
    · next hno =>
      have hfalse : negative = false := by
        rw [← Bool.not_eq_true, ← hneg]
        intro hhead
        obtain ⟨cs, hcs⟩ : ∃ cs, s.toList = '-' :: cs := by
          cases hlist : s.toList with
          | nil => rw [hlist] at hhead; cases hhead
          | cons c cs => rw [hlist] at hhead; cases hhead; exact ⟨cs, rfl⟩
        exact hno cs hcs
      rw [hfalse]
      exact h.minus

theorem Lays.binary (op : Operator) (hs : Lays s ps) (ht : Lays t qs) :
    Lays (s ++ " " ++ op.text ++ " " ++ t) (ps ++ op.signs ++ qs) := by
  have h := hs.append (.space ((Lays.operator op).append (.space ht)))
  simpa only [String.append_assoc, List.append_assoc] using h

theorem Lays.distinct (d : Bool) (h : Lays s ps) :
    Lays ((if d then "DISTINCT " else "") ++ s) (distinctSigns d ++ ps) := by
  cases d with
  | false => exact ⟨h.scans⟩
  | true => exact .opening "DISTINCT " ["DISTINCT"] (by decide) rfl h

theorem Trails.tableAlias {label : Option String} (h : LabelShaped .plain label) :
    Trails (tableAliasText label) (tableAliasSigns label) := by
  cases label with
  | none => exact .empty
  | some a => exact .space (.name (h a rfl))

theorem Trails.fieldAlias {label : Option String} (h : LabelShaped .plain label) :
    Trails (fieldAliasText label) (fieldAliasSigns label) := by
  cases label with
  | none => exact .empty
  | some a => exact .clause " AS " ["AS"] (by decide) rfl (.name (h a rfl))

theorem Trails.direction (ascending : Bool) :
    Trails (directionText ascending) (directionSigns ascending) := by
  cases ascending with
  | false => exact .space (.keyword (s := "DESC") (by decide))
  | true => exact .space (.keyword (s := "ASC") (by decide))

theorem Trails.clauseText {k : String} (ws : List String) (hws : ∀ w ∈ ws, w ∈ keywords)
    (hk : k = Text.join " " ws) (h : Lays s ps) (present : Bool) :
    Trails (clauseText k s present) (clauseSigns ws ps present) := by
  cases present with
  | false => exact .empty
  | true => exact .clause _ ws hws (by rw [hk]) h

theorem Trails.joinKind (kind : JoinKind) (h : Lays s ps) :
    Trails (" " ++ kind.text ++ " " ++ s) (kind.signs ++ ps) := by
  cases kind with
  | inner => exact .clause " INNER JOIN " ["INNER", "JOIN"] (by decide) rfl h
  | left => exact .clause " LEFT JOIN " ["LEFT", "JOIN"] (by decide) rfl h

theorem Trails.whenClause (h : Lays s ps) : Trails (" WHEN " ++ s) (phrase ["WHEN"] ++ ps) :=
  .clause " WHEN " ["WHEN"] (by decide) rfl h

theorem Trails.thenClause (h : Lays s ps) : Trails (" THEN " ++ s) (phrase ["THEN"] ++ ps) :=
  .clause " THEN " ["THEN"] (by decide) rfl h

theorem Trails.elseClause (h : Lays s ps) : Trails (" ELSE " ++ s) (phrase ["ELSE"] ++ ps) :=
  .clause " ELSE " ["ELSE"] (by decide) rfl h

theorem Trails.fromClause (h : Lays s ps) : Trails (" FROM " ++ s) (phrase ["FROM"] ++ ps) :=
  .clause " FROM " ["FROM"] (by decide) rfl h

theorem Trails.onClause (h : Lays s ps) : Trails (" ON " ++ s) (phrase ["ON"] ++ ps) :=
  .clause " ON " ["ON"] (by decide) rfl h

theorem Trails.whereClause (h : Lays s ps) : Trails (" WHERE " ++ s) (phrase ["WHERE"] ++ ps) :=
  .clause " WHERE " ["WHERE"] (by decide) rfl h

theorem Trails.havingClause (h : Lays s ps) : Trails (" HAVING " ++ s) (phrase ["HAVING"] ++ ps) :=
  .clause " HAVING " ["HAVING"] (by decide) rfl h

theorem Trails.limitClause (h : Lays s ps) : Trails (" LIMIT " ++ s) (phrase ["LIMIT"] ++ ps) :=
  .clause " LIMIT " ["LIMIT"] (by decide) rfl h

theorem Trails.offsetClause (h : Lays s ps) : Trails (" OFFSET " ++ s) (phrase ["OFFSET"] ++ ps) :=
  .clause " OFFSET " ["OFFSET"] (by decide) rfl h

theorem Trails.unionClause (h : Lays s ps) : Trails (" UNION " ++ s) (phrase ["UNION"] ++ ps) :=
  .clause " UNION " ["UNION"] (by decide) rfl h

theorem Trails.unionAllClause (h : Lays s ps) :
    Trails (" UNION ALL " ++ s) (phrase ["UNION", "ALL"] ++ ps) :=
  .clause " UNION ALL " ["UNION", "ALL"] (by decide) rfl h

theorem Trails.grouping (h : Lays s ps) (present : Bool) :
    Trails (EntitySql.clauseText "GROUP BY" s present) (clauseSigns ["GROUP", "BY"] ps present) :=
  .clauseText ["GROUP", "BY"] (by decide) rfl h present

theorem Trails.ordering (h : Lays s ps) (present : Bool) :
    Trails (EntitySql.clauseText "ORDER BY" s present) (clauseSigns ["ORDER", "BY"] ps present) :=
  .clauseText ["ORDER", "BY"] (by decide) rfl h present

section

variable {N : Lettering} {fs : List ResultField} {t : Option Table} {js : List Join}
  {c hv l o : Option Expr} {gs : List Expr} {os : List OrderItem} {us : List UnionPart}
  {sfs st sjs sc sgs shv sos sl so sus : String}

/-- The end that select shares with update and delete. -/
theorem Trails.tail (hos : Lays sos (ordersSigns N os)) (hl : Trails sl (optSigns N ["LIMIT"] l))
    (ho : Trails so (optSigns N ["OFFSET"] o)) :
    Trails (EntitySql.clauseText "ORDER BY" sos (!os.isEmpty) ++ sl ++ so) (tailSigns N os l o) :=
  ((Trails.ordering hos _).append hl).append ho

theorem Lays.select {d : Bool} {f : Facts} (hfs : Lays sfs (fieldsSigns N fs))
    (ht : Trails st (optTableSigns N t)) (hjs : Trails sjs (joinsSigns N js))
    (hc : Trails sc (optSigns N ["WHERE"] c)) (hgs : Lays sgs (exprsSigns N gs))
    (hhv : Trails shv (optSigns N ["HAVING"] hv)) (hos : Lays sos (ordersSigns N os))
    (hl : Trails sl (optSigns N ["LIMIT"] l)) (ho : Trails so (optSigns N ["OFFSET"] o))
    (hus : Trails sus (unionsSigns N us)) :
    Lays ("SELECT " ++ (if d then "DISTINCT " else "") ++ sfs ++ st ++ sjs ++ sc
        ++ EntitySql.clauseText "GROUP BY" sgs (!gs.isEmpty) ++ shv
        ++ EntitySql.clauseText "ORDER BY" sos (!os.isEmpty) ++ sl ++ so ++ sus)
      (Select.signs N ⟨d, fs, t, js, c, gs, hv, os, l, o, us, f⟩) := by
  have hselect := Lays.opening "SELECT " ["SELECT"] (by decide) rfl ((Lays.distinct d hfs).append
    (ht.append (hjs.append (hc.append ((Trails.grouping hgs (!gs.isEmpty)).append
      (hhv.append ((Trails.tail hos hl ho).append hus)))))))
  rw [Select.signs]
  simpa only [tailSigns, String.append_assoc, List.append_assoc, Sign.phrase, List.map_cons,
    List.map_nil, List.singleton_append] using hselect

end

theorem Select.text_mk (d : Bool) (fs : List ResultField) (t : Option Table) (js : List Join)
    (c hv l o : Option Expr) (gs : List Expr) (os : List OrderItem) (us : List UnionPart) (f : Facts) :
    Select.text ⟨d, fs, t, js, c, gs, hv, os, l, o, us, f⟩ =
      "SELECT " ++ (if d then "DISTINCT " else "") ++ fieldsText fs ++ optTableText " FROM " t
        ++ joinsText js ++ optExprText " WHERE " c ++ clauseText "GROUP BY" (exprsText gs) (!gs.isEmpty)
        ++ optExprText " HAVING " hv ++ clauseText "ORDER BY" (ordersText os) (!os.isEmpty)
        ++ optExprText " LIMIT " l ++ optExprText " OFFSET " o ++ unionsText us :=
  rfl

theorem head?_append {c : Char} (hs : s.toList.head? = some c) (t : String) :
    (s ++ t).toList.head? = some c := by
  rw [String.toList_append, List.head?_append, hs]
  rfl

/-- A name starts with a letter or an underscore. -/
theorem Token.IsName.head_ne (h : Token.IsName s) (t : String) :
    (s ++ t).toList.head? ≠ some '-' := by
  obtain ⟨w, gs, hs, hw, -⟩ := h
  obtain ⟨c, cs, rfl, hc, -⟩ := Token.isWord_cons hw
  have hhead : s.toList.head? = some c := by rw [hs]; rfl
  rw [head?_append hhead]
  rintro ⟨⟩
  exact absurd hc (by decide)

theorem Literal.head_text {l : Literal} (h : l.IsPlain) :
    l.text.toList.head? = some '-' ↔ (Expr.literal l).isNegative = true := by
  cases l with
  | string s =>
    have hlist := Token.toList_quoted s
    simp [Literal.text, hlist, Expr.isNegative]
  | int n =>
    cases n with
    | ofNat n =>
      have hdigit : ∀ c, n.repr.toList.head? = some c → c.isDigit = true := by
        intro c hc
        have hmem := List.mem_of_mem_head? hc
        rw [Nat.repr, String.toList_ofList] at hmem
        exact Nat.isDigit_of_mem_toDigits (by decide) (by decide) hmem
      refine iff_of_false (fun hhead => ?_) nofun
      exact absurd (hdigit '-' hhead) (by decide)
    | negSucc n => exact iff_of_true (head?_append (s := "-") rfl (n + 1).repr) rfl
  | float x => exact h.elim
  | bool b => cases b <;> exact iff_of_false (by decide) nofun
  | null => exact iff_of_false (by decide) nofun

theorem Expr.head_ne_minus {e : Expr} {s : String} {c : Char} (hs : s.toList.head? = some c) (hc : c ≠ '-')
    (hno : e.isNegative = false) : s.toList.head? = some '-' ↔ e.isNegative = true := by
  rw [hs, hno]
  exact iff_of_false (fun heq => hc (Option.some.inj heq)) Bool.false_ne_true

/-- Whether the text of an operand starts with a minus. -/
theorem Expr.Shaped.head_text {e : Expr} (h : e.Shaped .plain)
    (hb : e.needsParens UnaryOp.negate.precedence none = false) :
    e.text.toList.head? = some '-' ↔ e.isNegative = true := by
  have hleaf : e.isLeaf = true := Expr.isLeaf_of_precedence (Expr.le_precedence hb)
  cases e with
  | arith | compare | logic => cases hleaf
  | ident i =>
    rcases h.1 with hname | hstar
    · refine iff_of_false ?_ nofun
      rw [Expr.text, ← String.append_empty (s := i.value)]
      exact hname.head_ne ""
    · rw [Expr.text, hstar]
      exact head_ne_minus rfl (by decide) rfl
  | literal l => exact Literal.head_text h
  | marker m =>
    rw [Expr.text]
    exact head_ne_minus (c := '?') rfl (by decide) rfl
  | named m => exact head_ne_minus (head?_append (c := ':') rfl _) (by decide) rfl
  | call name d args =>
    refine iff_of_false ?_ nofun
    rw [Expr.text]
    simp only [String.append_assoc]
    exact Token.IsName.head_ne h.1 _
  | list items =>
    rw [Expr.text, String.append_assoc]
    exact head_ne_minus (head?_append (c := '(') rfl _) (by decide) rfl
  | unary op e =>
    cases op with
    | not =>
      have htight : Precedence.unary ≤ Precedence.not := Expr.le_precedence hb
      exact absurd htight (by decide)
    | negate =>
      refine iff_of_true ?_ rfl
      rw [Expr.text, minusText]
      split
      · rw [String.append_assoc]
        exact head?_append rfl _
      · exact head?_append rfl _
  | case o bs e =>
    rw [Expr.text]
    simp only [String.append_assoc]
    exact head_ne_minus (head?_append (c := 'C') rfl _) (by decide) rfl
  | subquery s =>
    rw [Expr.text, String.append_assoc]
    exact head_ne_minus (head?_append (c := '(') rfl _) (by decide) rfl

mutual
theorem Expr.Shaped.lays : ∀ e : Expr, e.Shaped .plain → Lays e.text (e.signs .plain)
  | .ident i, h => by
    rw [Expr.text, Expr.signs]
    split
    · next hstar =>
      rw [hstar]
      exact .symbol (by decide)
    · next hstar => exact .name (h.1.resolve_right hstar)
  | .literal l, h => by
    rw [Expr.text, Expr.signs]
    exact .literal h
  | .marker m, _ => by
    rw [Expr.text, Expr.signs]
    exact .anonymous m
  | .named m, h => by
    rw [Expr.text, Expr.signs]
    exact .named h.1
  | .call name d args, h => by
    have hargs := Lays.distinct d (ExprsShaped.lays args h.2)
    have hcall := (Lays.name h.1).append (.parens hargs)
    simpa only [Expr.text, Expr.signs, String.append_assoc, List.singleton_append] using hcall
  | .list items, h => by
    rw [Expr.text, Expr.signs]
    exact (Trails.parens (ExprsShaped.lays items h.2)).toLays
  | .arith op l r, h => by
    rw [Expr.text, Expr.signs]
    exact .binary (.arith op) ((Expr.Shaped.lays l h.1).wrap _) ((Expr.Shaped.lays r h.2).wrap _)
  | .logic op l r, h => by
    rw [Expr.text, Expr.signs]
    exact .binary (.logic op) ((Expr.Shaped.lays l h.1).wrap _) ((Expr.Shaped.lays r h.2).wrap _)
  | .compare op l r, h => by
    rw [Expr.text, Expr.signs]
    refine .binary (.compare op) ((Expr.Shaped.lays l h.1).wrap _) (Lays.wrap _ ?_)
    cases hop : op.isMembership with
    | false => exact Expr.Shaped.lays r (h.2.1 hop)
    | true => exact Expr.Member.lays r (h.2.2 hop).1
  | .unary .not e, h => by
    rw [Expr.text, Expr.signs]
    exact .opening "NOT " ["NOT"] (by decide) rfl ((Expr.Shaped.lays e h).wrap _)
  | .unary .negate e, h => by
    rw [Expr.text, Expr.signs]
    exact .negated (Expr.Shaped.lays e h.1) h.1.head_text
  | .case o bs e, h => by
    have hoperand : Trails (optExprText " " o) (optSigns .plain [] o) := OptShaped.trails .space o h.1
    have hcase := (Lays.keyword (s := "CASE") (by decide)).append
      (((hoperand.append (BranchesShaped.trails bs h.2.2.1)).append
        (OptShaped.trails .elseClause e h.2.2.2)).append
        (.space (.keyword (s := "END") (by decide))))
    simpa only [Expr.text, Expr.signs, String.append_assoc, List.singleton_append,
      show " " ++ "END" = " END" from rfl] using hcase
  | .subquery s, h => by
    rw [Expr.text, Expr.signs]
    exact (Trails.parens (Select.Shaped.lays s h)).toLays
theorem Expr.Member.lays : ∀ e : Expr, e.Member .plain → Lays e.text (e.signs .plain)
  | .list items, h => by
    rw [Expr.text, Expr.signs]
    exact (Trails.parens (ExprsShaped.lays items h.2.2)).toLays
  | .subquery s, h => by
    rw [Expr.text, Expr.signs]
    exact (Trails.parens (Select.Shaped.lays s h)).toLays
  | .arith op l r, h => by
    rw [Expr.text, Expr.signs]
    exact .binary (.arith op) ((Expr.Member.lays l h.1).wrap _) ((Expr.Shaped.lays r h.2.2).wrap _)
theorem ExprsShaped.lays : ∀ es, ExprsShaped .plain es → Lays (exprsText es) (exprsSigns .plain es)
  | [], _ => Trails.empty.toLays
  | [e], h => Expr.Shaped.lays e h.1
  | e :: f :: es, h => by
    show Lays (e.text ++ ", " ++ exprsText (f :: es)) (e.signs .plain ++ symbol "," :: exprsSigns .plain (f :: es))
    rw [String.append_assoc]
    exact (Expr.Shaped.lays e h.1).append (.comma (ExprsShaped.lays (f :: es) h.2))
theorem OptShaped.trails {k : String} {ws : List String}
    (hk : ∀ {s ps}, Lays s ps → Trails (k ++ s) (phrase ws ++ ps)) : ∀ o, OptShaped .plain o →
    Trails (optExprText k o) (optSigns .plain ws o)
  | none, _ => .empty
  | some e, h => hk (Expr.Shaped.lays e h)
theorem BranchesShaped.trails : ∀ bs, BranchesShaped .plain bs →
    Trails (branchesText bs) (branchesSigns .plain bs)
  | [], _ => .empty
  | ⟨c, r⟩ :: bs, h => by
    have hbranch := ((Trails.whenClause (Expr.Shaped.lays c h.1)).append
      (.thenClause (Expr.Shaped.lays r h.2.1))).append (BranchesShaped.trails bs h.2.2)
    simpa only [branchesText, branchesSigns, String.append_assoc, List.append_assoc, phrase,
      List.map_cons, List.map_nil, List.cons_append, List.nil_append] using hbranch
theorem FieldsShaped.lays : ∀ fs, FieldsShaped .plain fs → Lays (fieldsText fs) (fieldsSigns .plain fs)
  | [], _ => Trails.empty.toLays
  | [⟨e, a⟩], h => (Expr.Shaped.lays e h.1).append (.fieldAlias h.2.1)
  | ⟨e, a⟩ :: f :: fs, h => by
    show Lays (e.text ++ fieldAliasText a ++ ", " ++ fieldsText (f :: fs))
      (e.signs .plain ++ fieldAliasSigns a ++ symbol "," :: fieldsSigns .plain (f :: fs))
    rw [String.append_assoc]
    exact ((Expr.Shaped.lays e h.1).append (.fieldAlias h.2.1)).append
      (.comma (FieldsShaped.lays (f :: fs) h.2.2))
theorem OrdersShaped.lays : ∀ os, OrdersShaped .plain os → Lays (ordersText os) (ordersSigns .plain os)
  | [], _ => Trails.empty.toLays
  | [⟨e, a⟩], h => (Expr.Shaped.lays e h.1).append (.direction a)
  | ⟨e, a⟩ :: o :: os, h => by
    show Lays (e.text ++ directionText a ++ ", " ++ ordersText (o :: os))
      (e.signs .plain ++ directionSigns a ++ symbol "," :: ordersSigns .plain (o :: os))
    rw [String.append_assoc]
    exact ((Expr.Shaped.lays e h.1).append (.direction a)).append
      (.comma (OrdersShaped.lays (o :: os) h.2))
theorem Table.Shaped.lays : ∀ t : Table, t.Shaped .plain → Lays t.text (t.signs .plain)
  | .named _ _, h => (Lays.name h.1).append (.tableAlias h.2)
  | .derived s _, h => (Trails.parens (Select.Shaped.lays s h.1)).toLays.append (.tableAlias h.2)
theorem OptTableShaped.trails : ∀ t, OptTableShaped .plain t →
    Trails (optTableText " FROM " t) (optTableSigns .plain t)
  | none, _ => .empty
  | some t, h => .fromClause (Table.Shaped.lays t h)
theorem JoinsShaped.trails : ∀ js, JoinsShaped .plain js → Trails (joinsText js) (joinsSigns .plain js)
  | [], _ => .empty
  | ⟨kind, t, c, _⟩ :: js, h =>
    ((Trails.joinKind kind (Table.Shaped.lays t h.1)).append
      (OptShaped.trails .onClause c h.2.1)).append
      (JoinsShaped.trails js h.2.2.2.2)
theorem UnionsShaped.trails : ∀ us, UnionsShaped .plain us → Trails (unionsText us) (unionsSigns .plain us)
  | [], _ => .empty
  | ⟨all, s⟩ :: us, h => by
    have hs := Select.Shaped.lays s h.1
    have hus := UnionsShaped.trails us h.2.2
    cases all with
    | false => exact (Trails.unionClause hs).append hus
    | true => exact (Trails.unionAllClause hs).append hus
theorem Select.Shaped.lays : ∀ s : Select, s.Shaped .plain → Lays s.text (s.signs .plain)
  | ⟨d, fs, t, js, c, gs, hv, os, l, o, us, _⟩, h => by
    obtain ⟨-, hfs, ht, hjs, hc, hgs, hhv, hos, hl, ho, hus, -⟩ := h
    rw [Select.text_mk]
    exact .select (FieldsShaped.lays fs hfs) (OptTableShaped.trails t ht) (JoinsShaped.trails js hjs)
      (OptShaped.trails .whereClause c hc) (ExprsShaped.lays gs hgs)
      (OptShaped.trails .havingClause hv hhv) (OrdersShaped.lays os hos)
      (OptShaped.trails .limitClause l hl) (OptShaped.trails .offsetClause o ho)
      (UnionsShaped.trails us hus)
end

/-! ## Statements -/

theorem Lays.commas {α : Type} {f : α → String} {g : α → List Sign} : ∀ {as : List α},
    (∀ a ∈ as, Lays (f a) (g a)) → Lays (Text.join ", " (as.map f)) (commas (as.map g))
  | [], _ => Trails.empty.toLays
  | [a], h => by
    rw [List.map_cons, List.map_nil, List.map_cons, List.map_nil, Sign.commas, List.flatMap_nil,
      List.append_nil]
    exact h a List.mem_cons_self
  | a :: b :: as, h => by
    obtain ⟨ha, has⟩ := List.forall_mem_cons.mp h
    show Lays (f a ++ ", " ++ Text.join ", " ((b :: as).map f)) _
    rw [commas_map_cons, String.append_assoc]
    exact ha.append (.comma (Lays.commas has))

theorem Expr.NameShaped.lays {e : Expr} (h : e.NameShaped .plain) : Lays e.text (e.signs .plain) := by
  obtain ⟨n, hn, rfl⟩ := h
  exact Expr.Shaped.lays (.name n) ⟨.inl hn, rfl⟩

theorem Expr.RowShaped.lays {e : Expr} (h : e.RowShaped .plain) : Lays e.text (e.signs .plain) := by
  obtain ⟨items, rfl, -, hitems⟩ := h
  rw [Expr.text, Expr.signs]
  exact (Trails.parens (ExprsShaped.lays items hitems)).toLays

theorem Assignment.lays {a : Assignment} (ht : a.target.NameShaped .plain)
    (hv : a.value.Shaped .plain) : Lays a.text (a.signs .plain) := by
  have h := ht.lays.append (.space ((Lays.symbol (s := "=") (by decide)).append
    (.space (Expr.Shaped.lays _ hv))))
  rw [Assignment.text, Assignment.signs, show " = " = " " ++ ("=" ++ " ") from rfl]
  simpa only [String.append_assoc, List.singleton_append] using h

theorem InsertSource.Shaped.trails : ∀ {i : InsertSource}, i.Shaped .plain → Trails i.text (i.signs .plain)
  | .values rows, h => by
    rw [InsertSource.text, InsertSource.signs, exprsText_eq, exprsSigns_eq]
    exact .clause " VALUES " ["VALUES"] (by decide) rfl (.commas fun r hr => (h.2 r hr).lays)
  | .select s, h => .space (Select.Shaped.lays s h)

/-- **A printed query is scanned as its tokens.** -/
theorem Query.Shaped.lays {q : Query} (h : q.Shaped .plain) : Lays q.text (q.signs .plain) := by
  cases q with
  | select s => exact Select.Shaped.lays s h
  | insert i =>
    have hcolumns : Trails (if i.columns.isEmpty then "" else " (" ++ exprsText i.columns ++ ")")
        (if i.columns.isEmpty then [] else parens (exprsSigns .plain i.columns)) := by
      split
      · exact .empty
      · have hnames : Lays (exprsText i.columns) (exprsSigns .plain i.columns) := by
          rw [exprsText_eq, exprsSigns_eq]
          exact .commas fun e he => (h.columns e he).lays
        have happ : " (" ++ exprsText i.columns ++ ")" = " " ++ ("(" ++ exprsText i.columns ++ ")") := by
          rw [← String.append_assoc, ← String.append_assoc]
          rfl
        rw [happ]
        exact .space (Trails.parens hnames).toLays
    have hreturning : Trails
        (clauseText "RETURNING" (fieldsText i.returning) (!i.returning.isEmpty))
        (clauseSigns ["RETURNING"] (fieldsSigns .plain i.returning) (!i.returning.isEmpty)) :=
      .clauseText ["RETURNING"] (by decide) rfl (FieldsShaped.lays _ h.returning) _
    have hinsert := Lays.opening "INSERT INTO " ["INSERT", "INTO"] (by decide) rfl
      ((Table.Shaped.lays _ h.table).append (hcolumns.append (h.source.trails.append hreturning)))
    rw [Query.text, Query.signs, Insert.text, Insert.signs]
    simpa only [String.append_assoc, List.append_assoc] using hinsert
  | update u =>
    have htail := Trails.tail (OrdersShaped.lays _ h.ordering) (OptShaped.trails .limitClause _ h.limit)
      (OptShaped.trails .offsetClause _ h.offset)
    have hset := Trails.clause " SET " ["SET"] (by decide) rfl
      (Lays.commas fun a ha => Assignment.lays (h.assignments a ha).1 (h.assignments a ha).2)
    have hupdate := Lays.opening "UPDATE " ["UPDATE"] (by decide) rfl
      ((Table.Shaped.lays _ h.table).append (hset.append
        ((OptShaped.trails .whereClause _ h.criteria).append htail)))
    rw [Query.text, Query.signs, Update.text, Update.signs]
    simpa only [tailText, String.append_assoc, List.append_assoc, Sign.phrase, List.map_cons,
      List.map_nil, List.cons_append, List.nil_append] using hupdate
  | delete d =>
    have htail := Trails.tail (OrdersShaped.lays _ h.ordering) (OptShaped.trails .limitClause _ h.limit)
      (OptShaped.trails .offsetClause _ h.offset)
    have hdelete := Lays.opening "DELETE FROM " ["DELETE", "FROM"] (by decide) rfl
      ((Table.Shaped.lays _ h.table).append ((OptShaped.trails .whereClause _ h.criteria).append htail))
    rw [Query.text, Query.signs, Delete.text, Delete.signs]
    simpa only [tailText, String.append_assoc, List.append_assoc] using hdelete

end EntitySql
