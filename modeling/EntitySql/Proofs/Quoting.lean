import Mathlib
import EntitySql.Dialect
import EntitySql.Proofs.RoundTrip
import EntitySql.Proofs.Segments

/-!
# Reading quoted names

SQL puts each segment of a name in quotes of its own, and a quote inside a segment twice. A wildcard stays
bare. Such a name is read as one token for each segment, with points between them, and these are put
together to the same name, unless its first segment is a wildcard (`Text.Leads`).

* `Lays.quoteIdentifier`: a quoted name is scanned as its segments.
* `Lettering.legible_quoted`: the grammar reads these back as the name.
* `Vocabulary.admits_quotable`: which texts are made of names that can be quoted.
-/

namespace EntitySql

open Sign

/-! ## The tokens of a quoted name -/

namespace Sign

/-- A segment of a name as a token. -/
def bare (g : String) : Sign := if g = "*" then symbol "*" else name g

theorem segment_eq (g : String) : segment g = [symbol ".", bare g] := rfl

theorem bare_of_ne {g : String} (h : g ≠ "*") : bare g = name g := if_neg h

theorem opensName_bare (g : String) : (bare g).opensName = true := by
  unfold bare
  split <;> rfl

theorem mark_bare (g : String) : (bare g).mark = none := by
  unfold bare
  split <;> rfl

theorem marks_segments (gs : List String) : marks (gs.flatMap segment) = [] := by
  induction gs with
  | nil => rfl
  | cons g gs ih =>
    have hbare : marks [bare g] = [] := List.filterMap_cons_none (mark_bare g)
    rw [List.flatMap_cons, segment_eq, marks_append, ih, marks_symbol, hbare]
    rfl

end Sign

/-- A name as one token for each segment, with points between them. -/
def Lettering.quoted : Lettering where
  signs s := ((Text.segments s).flatMap segment).tail
  opens s := by
    obtain ⟨g, gs, hs⟩ := List.exists_cons_of_ne_nil (Text.segments_ne_nil s)
    rw [hs]
    exact ⟨bare g, _, rfl, opensName_bare g⟩
  quiet s := by
    have hmarks := marks_segments (Text.segments s)
    obtain ⟨g, gs, hs⟩ := List.exists_cons_of_ne_nil (Text.segments_ne_nil s)
    rw [hs] at hmarks ⊢
    exact hmarks

theorem Lettering.signs_quoted {s g : String} {gs : List String} (h : Text.segments s = g :: gs) :
    Lettering.quoted.signs s = bare g :: gs.flatMap segment := by
  show ((Text.segments s).flatMap segment).tail = _
  rw [h]
  rfl

/-! ## Scanning quoted names -/

namespace Token

theorem toList_quoteSegment {g : String} (h : g ≠ "*") :
    (Dialect.generic.quoteSegment g).toList = '\x22' :: (twice '\x22' g.toList ++ ['\x22']) := by
  rw [Dialect.quoteSegment, if_neg h]
  simp only [String.toList_append, toList_doubled]
  rfl

/-- A quoted segment is one token, if no further quote follows. -/
theorem Scans.quoted {rest : List Char} {ps : List Sign} (h : Scans rest ps)
    (hrest : rest.head? ≠ some '\x22') (g : String) :
    Scans ((Dialect.generic.quoteSegment g).toList ++ rest) (bare g :: ps) := by
  by_cases hstar : g = "*"
  · subst hstar
    exact h.symbol (by decide)
  have hclose := closing?_twice hrest g.toList
  have hlexeme : lexeme? ((Dialect.generic.quoteSegment g).toList ++ rest) = some
      { kind := .identifier, size := (Dialect.generic.quoteSegment g).toList.length
        quote := some '\x22' } := by
    have hblank : Text.isBlank '\x22' = false := rfl
    have hquote : ('\x22' : Char) ≠ '\x27' := by decide
    rw [toList_quoteSegment hstar, List.cons_append, List.append_assoc, List.singleton_append, lexeme?,
      if_neg (by simp [hblank]), if_neg hquote, if_pos rfl, hclose]
    simp
  rw [bare_of_ne hstar]
  refine h.lexeme hlexeme rfl rfl ?_ ?_
  · rintro ⟨⟩
  · -- the quotes around it are taken off, and of two inside one
    show g = String.ofList (Text.undoubleChars '\x22' _)
    rw [toList_quoteSegment hstar, List.drop_succ_cons, List.drop_zero, List.dropLast_concat,
      undoubleChars_twice, String.ofList_toList]

theorem Scans.segments {rest : List Char} {ps : List Sign} (h : Scans rest ps)
    (hrest : rest.head? ≠ some '\x22') : ∀ (gs : List String) (g : String),
    Scans ((Text.join "." ((g :: gs).map Dialect.generic.quoteSegment)).toList ++ rest)
      (bare g :: (gs.flatMap segment ++ ps))
  | [], g => h.quoted hrest g
  | g' :: gs, g => by
    have hmore := (Scans.segments h hrest gs g').symbol (c := '.') (by decide)
    have hfirst := hmore.quoted (by rw [List.head?_cons]; decide) g
    rw [List.map_cons, Text.join_cons_of_ne_nil (by simp), String.toList_append, String.toList_append,
      List.append_assoc, List.append_assoc]
    exact hfirst

end Token

/-- **A quoted name is scanned as its segments.** -/
theorem Lays.quoteIdentifier (s : String) : Lays (Dialect.generic.quoteIdentifier s) (Lettering.quoted.signs s) where
  scans {rest qs} hb hr := by
    obtain ⟨g, gs, hs⟩ := List.exists_cons_of_ne_nil (Text.segments_ne_nil s)
    have hrest : rest.head? ≠ some '\x22' := fun hhead => absurd (hb _ hhead) (by decide)
    rw [Dialect.quoteIdentifier, Lettering.signs_quoted hs, hs]
    exact hr.segments hrest gs g

/-! ## Reading quoted names -/

/-- Names that do not start with a wildcard, and numbers of digits alone. -/
def Vocabulary.quotable : Vocabulary where
  word := Text.Leads
  call _ := True
  name := Text.Leads
  parameter _ := True
  literal := Literal.IsPlain
  name_word := id
  name_segment hs _ := Text.leads_append.mpr hs
  name_wildcard hs := Text.leads_append.mpr hs
  literal_bool _ := trivial
  literal_null := trivial
  literal_negate := Literal.IsPlain.negate

/-- Segments that are read one after the other make up the name that they were taken from. -/
theorem Text.foldl_segments : ∀ (gs : List String) (g : String),
    gs.foldl (fun value h => value ++ "." ++ h) g = join "." (g :: gs)
  | [], g => rfl
  | g' :: gs, g => by
    rw [List.foldl_cons, foldl_segments gs, join_cons_of_ne_nil (List.cons_ne_nil _ _)]
    cases gs with
    | nil => rfl
    | cons g'' gs =>
      rw [join_cons_of_ne_nil (List.cons_ne_nil _ _), join_cons_of_ne_nil (List.cons_ne_nil _ _)]
      simp only [String.append_assoc]

/-- **Quoted names are read back** as the names they were written for. -/
theorem Lettering.legible_quoted : Lettering.quoted.Legible .quotable where
  reads {s rest} hs hrest := by
    obtain ⟨g, gs, hsegments⟩ := List.exists_cons_of_ne_nil (Text.segments_ne_nil s)
    have hstar := hs.first_ne hsegments
    have hvalue : gs.foldl (fun value h => value ++ "." ++ h) g = s := by
      rw [Text.foldl_segments, ← hsegments, Text.join_segments]
    have hreads := Grammar.reads_identifier g gs hrest
    rw [hvalue] at hreads
    rw [signs_quoted hsegments, bare_of_ne hstar]
    exact hreads
  atom {s} hs := by
    obtain ⟨g, gs, hsegments⟩ := List.exists_cons_of_ne_nil (Text.segments_ne_nil s)
    have hstar := hs.first_ne hsegments
    refine ⟨g, gs.flatMap segment, by rw [signs_quoted hsegments, bare_of_ne hstar], ?_⟩
    cases gs with
    | nil => exact .nil
    | cons g' gs => exact .cons rfl
  star := Text.not_leads_star
  literal := id

/-! ## Names without quotes -/

namespace Token

theorem not_mem_word {w : List Char} (h : isWord w = true) : '.' ∉ w := by
  obtain ⟨c, cs, rfl, hc, hcs⟩ := isWord_cons h
  intro hmem
  rcases List.mem_cons.mp hmem with rfl | hmem
  · exact absurd hc (by decide)
  · exact absurd (hcs '.' hmem) (by decide)

theorem not_mem_segment {g : List Char} (h : isSegment g = true) : '.' ∉ g := by
  simp only [isSegment, Bool.or_eq_true, beq_iff_eq] at h
  rcases h with rfl | h
  · decide
  · exact not_mem_word h

theorem splitChars_dotted : ∀ {gs : List (List Char)} {w : List Char}, '.' ∉ w → (∀ g ∈ gs, '.' ∉ g) →
    Text.splitChars '.' (w ++ dotted gs) = w :: gs
  | [], w, hw, _ => by
    rw [dotted, List.flatMap_nil, List.append_nil, Text.splitChars_plain hw]
  | g :: gs, w, hw, hgs => by
    obtain ⟨hg, hgs⟩ := List.forall_mem_cons.mp hgs
    have happ : w ++ dotted (g :: gs) = w ++ '.' :: (g ++ dotted gs) := rfl
    rw [happ, Text.splitChars_append, Text.splitChars_plain hw, splitChars_dotted hg hgs]
    rfl

theorem eq_dotted : ∀ {cs w : List Char} {gs : List (List Char)}, Text.splitChars '.' cs = w :: gs →
    cs = w ++ dotted gs
  | [], _, _, h => by
    cases h
    rfl
  | c :: cs, w, gs, h => by
    rw [Text.splitChars] at h
    cases hcs : Text.splitChars '.' cs with
    | nil => exact absurd hcs (Text.splitChars_ne_nil '.' cs)
    | cons piece pieces =>
      have ih := eq_dotted hcs
      rw [hcs] at h
      by_cases hc : c = '.'
      · rw [if_pos hc] at h
        cases h
        rw [hc, ih]
        rfl
      · rw [if_neg hc] at h
        cases h
        rw [ih]
        rfl

/-- Whether a text is read as one name. -/
def isName (s : String) : Bool :=
  match Text.splitChars '.' s.toList with
  | [] => false
  | w :: gs => isWord w && gs.all isSegment && (!gs.isEmpty || !isReserved s)

theorem isName_iff {s : String} : isName s = true ↔ IsName s := by
  unfold isName
  constructor
  · intro h
    split at h
    · cases h
    · next w gs hsplit =>
      simp only [Bool.and_eq_true, Bool.or_eq_true, Bool.not_eq_true', List.all_eq_true] at h
      obtain ⟨⟨hw, hgs⟩, hreserved⟩ := h
      refine ⟨w, gs, eq_dotted hsplit, hw, hgs, fun hnil => hreserved.resolve_left ?_⟩
      rw [hnil]
      exact Bool.noConfusion
  · rintro ⟨w, gs, hs, hw, hgs, hreserved⟩
    have hsplit := splitChars_dotted (not_mem_word hw) fun g hg => not_mem_segment (hgs g hg)
    rw [← hs] at hsplit
    rw [hsplit]
    simp only [hw, List.all_eq_true.mpr hgs, Bool.true_and, Bool.or_eq_true, Bool.not_eq_true']
    cases gs with
    | nil => exact .inr (hreserved rfl)
    | cons g gs => exact .inl rfl

instance : DecidablePred IsName := fun _ => decidable_of_iff _ isName_iff

/-- A name that needs no quotes starts with a word. -/
theorem IsName.leads {s : String} (h : IsName s) : Text.Leads s := by
  obtain ⟨w, gs, hs, hw, hgs, -⟩ := h
  rw [Text.Leads, Text.segments, hs, splitChars_dotted (not_mem_word hw) fun g hg => not_mem_segment (hgs g hg)]
  obtain ⟨c, cs, rfl, hc, -⟩ := isWord_cons hw
  intro hstar
  have hlist : c :: cs = ['*'] := by
    rw [← String.toList_ofList (l := c :: cs), Option.some.inj hstar]
    rfl
  obtain ⟨rfl, -⟩ := List.cons.inj hlist
  exact absurd hc (by decide)

end Token

/-! ## Texts of quotable names -/

/-- A token that can be written in SQL: its name can be quoted, its number is plain. -/
def Token.isQuotable (t : Token) : Bool :=
  (!t.isQuoted || decide (Text.Leads t.text)) && (!t.isNumber || t.isPlainInteger)

/-- **The tokens of a text without such names as `"*"` and with plain numbers** can be quoted. -/
theorem Vocabulary.admits_quotable {text : String} {ts : List Token} {t : Token}
    (h : Token.scan text = .ok ts) (ht : t ∈ ts) (hquotable : t.isQuotable = true) :
    Vocabulary.quotable.Admits t := by
  simp only [Token.isQuotable, Bool.and_eq_true, Bool.or_eq_true, Bool.not_eq_true', decide_eq_true_eq]
    at hquotable
  obtain ⟨hname, hnumber⟩ := hquotable
  refine ⟨fun hkind => ?_, fun _ => trivial, fun hkind l hl => ?_, fun _ _ _ => trivial⟩
  · rcases hname with hquoted | hleads
    · exact (Token.isName_of_mem_scan h ht hkind hquoted).leads
    · exact hleads
  · refine Token.isPlain_of_isPlainInteger hkind (fun hyes => ?_) hl
    rcases hnumber with hno | hplain
    · exact absurd (hyes.symm.trans hno) (by decide)
    · exact hplain

end EntitySql
