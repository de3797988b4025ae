import Mathlib
import EntitySql.Draft
import EntitySql.Query.Equality
import EntitySql.Proofs.RoundTrip
import EntitySql.Proofs.Segments

/-!
# Drafts say what can be written

A draft is built into a tree without a text. The tree is nevertheless one that could have been read: its
parts have the shapes that are read, and each value took the number that its `?` has in the text. So the
text of a built query is read as that query. This asks that the names of the draft are names that need no
quotes, and that its written parts have plain numbers and no `?` of their own (`Draft.Plain`).

* `Mark.Spans`: markers are numbered from the values collected before to those collected after.
* `Assembly.spans_fold`: the fold over condition entries, groups and connectives.
* **`Draft.ofText_build`**: the text of a built query is read as that query.
-/

namespace EntitySql

open Outcome

/-! ## Texts of a draft -/

namespace Token

/-- A text that is one name without quotes. -/
def isLoneName (text : String) : Bool :=
  match scan text with
  | .ok [t] => t.kind == .identifier && !t.isQuoted && t.text == text
  | _ => false

/-- A token of a text that has no quoted names, plain numbers only and no `?`. -/
def isModest (t : Token) : Bool :=
  !t.isQuoted && (!t.isNumber || t.isPlainInteger) && !(t.kind == .parameter && t.text == "?")

/-- A text of such tokens. -/
def isModestText (text : String) : Bool :=
  match scan text with
  | .ok ts => ts.all isModest
  | .error _ => false

theorem isName_of_isLoneName {text : String} (h : isLoneName text = true) : IsName text := by
  unfold isLoneName at h
  split at h
  · next t hts =>
    simp only [Bool.and_eq_true, beq_iff_eq, Bool.not_eq_true'] at h
    obtain ⟨⟨hkind, hquoted⟩, htext⟩ := h
    exact htext ▸ isName_of_mem_scan hts (List.mem_singleton_self t) hkind hquoted
  · cases h

theorem exists_of_isModestText {text : String} (h : isModestText text = true) :
    ∃ ts, scan text = .ok ts ∧ ∀ t ∈ ts, t.isModest = true := by
  unfold isModestText at h
  split at h
  · next ts hts => exact ⟨ts, hts, List.all_eq_true.mp h⟩
  · cases h

theorem admits_of_isModest {text : String} {ts : List Token} {t : Token} (hts : scan text = .ok ts)
    (ht : t ∈ ts) (h : t.isModest = true) : Vocabulary.plain.Admits t := by
  simp only [isModest, Bool.and_eq_true, Bool.not_eq_true', Bool.or_eq_true] at h
  refine Vocabulary.admits_plain hts ht h.1.1 fun hnumber => ?_
  rcases h.1.2 with hno | hplain
  · exact absurd (hnumber.symm.trans hno) (by decide)
  · exact hplain

end Token

/-! ## Numbered markers -/

/-- Markers as they are read, the first `?` being number `n` and the next one after them `n'`. -/
def Mark.Spans : Nat → List Mark → Nat → Prop
  | n, [], n' => n = n'
  | n, .anonymous m :: ms, n' => m = { position := some n } ∧ Spans (n + 1) ms n'
  | n, .named m :: ms, n' => m = { name := m.name } ∧ Spans n ms n'

namespace Mark.Spans

theorem append {ms ms' : List Mark} {n k n' : Nat} (h : Spans n ms k) (h' : Spans k ms' n') :
    Spans n (ms ++ ms') n' := by
  induction ms generalizing n with
  | nil =>
    cases h
    exact h'
  | cons m ms ih =>
    cases m with
    | anonymous m => exact ⟨h.1, ih h.2⟩
    | named m => exact ⟨h.1, ih h.2⟩

theorem sequence {ms : List Mark} {n n' : Nat} (h : Spans n ms n') : Sequence n ms := by
  induction ms generalizing n with
  | nil => trivial
  | cons m ms ih =>
    cases m with
    | anonymous m => exact ⟨h.1, ih h.2⟩
    | named m => exact ⟨h.1, ih h.2⟩

/-- Markers of a text without `?` do not count. -/
theorem of_modest {text : String} {ts : List Token} (hts : Token.scan text = .ok ts)
    (h : ∀ t ∈ ts, t.isModest = true) (k n : Nat) : Spans n (Token.marksFrom k ts) n := by
  have hnamed : ∀ t ∈ ts, t.kind = .parameter → ∃ name, t.text.toList = ':' :: name := by
    intro t ht hkind
    have hmodest := h t ht
    simp only [Token.isModest, hkind, Bool.and_eq_true, Bool.not_eq_true', beq_self_eq_true, Bool.true_and,
      beq_eq_false_iff_ne] at hmodest
    obtain ⟨name, hname, -⟩ := (Token.parameter_of_mem_scan hts ht hkind).resolve_left hmodest.2
    exact ⟨name, hname⟩
  clear hts h
  induction ts with
  | nil => rfl
  | cons t ts ih =>
    obtain ⟨ht, hts⟩ := List.forall_mem_cons.mp hnamed
    rw [Token.marksFrom]
    split
    · next hkind =>
      obtain ⟨name, hname⟩ := ht hkind
      rw [hname]
      exact ⟨rfl, ih hts⟩
    · exact ih hts

end Mark.Spans

/-! ## Plain drafts -/

mutual
/-- A condition entry whose property is one name without quotes, and whose expression was read from a modest
text. -/
def Condition.Plain : Condition → Prop
  | .field key _ => Token.isLoneName (Assembly.splitKey (Text.trim key)).1 = true
  | .group entries => ConditionsPlain entries
  | .raw e => ∃ text, Expr.ofText text = .ok e ∧ Token.isModestText text = true
  | .connective _ => True
def ConditionsPlain : List Condition → Prop
  | [] => True
  | c :: cs => c.Plain ∧ ConditionsPlain cs
end

/-- A join on a name without quotes, which has no dots where there is a condition. -/
structure DraftJoin.Plain (j : DraftJoin) : Prop where
  target : Token.isLoneName j.target = true
  label : ∀ a, j.label = some a → Token.isLoneName a = true
  undotted : j.condition.isSome = true → Text.Plain j.target
  condition : ∀ text, j.condition = some text → Token.isModestText text = true

/-- A draft that can be written: its names need no quotes, and the texts in it hold no `?`. -/
structure Draft.Plain (d : Draft) : Prop where
  entity : Token.isLoneName d.entity = true
  label : ∀ a, d.label = some a → Token.isLoneName a = true
  fields : ∀ text ∈ d.fields, Token.isModestText text = true
  joins : ∀ j ∈ d.joins, j.Plain
  filters : ∀ cs ∈ d.filters, ConditionsPlain cs
  ordering : ∀ text ∈ d.ordering, Token.isModestText text = true
  columns : ∀ row, d.rows.head? = some row → row ≠ [] ∧ ∀ c ∈ Pairs.keys row, Token.isLoneName c = true
  assignments : ∀ a ∈ d.assignments, Token.isLoneName a.1 = true
  returning : ∀ text ∈ d.returning, Token.isModestText text = true

/-! ## Assembled parts -/

namespace Assembly

variable {α β : Type} {marks : α → List Mark} {shape : α → Prop}

/-- Each success of an assembly gives something of a shape, whose markers are numbered from the values
collected before it to those collected after it. -/
def Places (x : Assembly α) (marks : α → List Mark) (shape : α → Prop) : Prop :=
  ∀ vs a vs', x vs = .ok a vs' → Mark.Spans vs.length (marks a) vs'.length ∧ shape a

theorem Places.mono {shape' : α → Prop} {x : Assembly α} (hx : Places x marks shape)
    (h : ∀ a, shape a → shape' a) : Places x marks shape' :=
  fun vs a vs' ha => ⟨(hx vs a vs' ha).1, h a (hx vs a vs' ha).2⟩

theorem places_refuse (e : QueryError) : Places (refuse e : Assembly α) marks shape := nofun

/-- The items of a list, one after the other. -/
theorem Places.each (f : β → Assembly α) {g : List β → Assembly (List α)} (hnil : g [] = pure [])
    (hcons : ∀ b bs, g (b :: bs) = (do return (← f b) :: (← g bs))) :
    ∀ {bs : List β}, (∀ b ∈ bs, Places (f b) marks shape) →
      Places (g bs) (List.flatMap marks) fun as => (bs ≠ [] → as ≠ []) ∧ ∀ a ∈ as, shape a
  | [], _, vs, as, vs', h => by
    rw [hnil] at h
    obtain ⟨rfl, rfl⟩ := read_pure_eq_ok.mp h
    exact ⟨rfl, nofun, nofun⟩
  | b :: bs, hf, vs, as, vs', h => by
    obtain ⟨hb, hbs⟩ := List.forall_mem_cons.mp hf
    rw [hcons] at h
    obtain ⟨a, us, ha, h⟩ := read_bind_eq_ok.mp h
    obtain ⟨as, us', has, h⟩ := read_bind_eq_ok.mp h
    obtain ⟨rfl, rfl⟩ := read_pure_eq_ok.mp h
    obtain ⟨hspan, hshape⟩ := hb _ _ _ ha
    obtain ⟨hspans, -, hshapes⟩ := Places.each f hnil hcons hbs _ _ _ has
    rw [List.flatMap_cons]
    exact ⟨hspan.append hspans, fun _ => List.cons_ne_nil _ _, List.forall_mem_cons.mpr ⟨hshape, hshapes⟩⟩

/-! ### Values -/

theorem places_parameter (v : Value) :
    Places (parameter v) (Expr.collect markers) fun e => e.Shaped .plain ∧ e.isGroup = false := by
  intro vs e vs' h
  cases h
  exact ⟨⟨rfl, by simp [Mark.Spans]⟩, trivial, rfl⟩

theorem places_parameters (items : List Value) :
    Places (parameters items) (collectExprs markers) fun es =>
      (items ≠ [] → es ≠ []) ∧ ∀ e ∈ es, e.Shaped .plain ∧ e.isGroup = false := by
  have h := Places.each parameter (show parameters [] = pure [] from rfl) (fun _ _ => rfl)
    fun v (_ : v ∈ items) => places_parameter v
  rwa [← funext collectExprs_eq] at h

theorem places_membership (property : String) (v : Value) :
    Places (membership property v) (Expr.collect markers) fun e =>
      e.Member .plain ∧ Precedence.comparison < e.precedence := by
  unfold membership
  split
  · exact places_refuse _
  · next items hne =>
    split
    · intro vs e vs' h
      obtain ⟨es, us, hes, h⟩ := read_bind_eq_ok.mp h
      obtain ⟨rfl, rfl⟩ := read_pure_eq_ok.mp h
      obtain ⟨hspans, hnonempty, hshaped⟩ := places_parameters items _ _ _ hes
      refine ⟨hspans, ⟨hnonempty fun hnil => hne (hnil ▸ rfl), ?_, ?_⟩,
        show Precedence.comparison < Precedence.atom by decide⟩
      · rintro e rfl
        exact (hshaped e (List.mem_singleton_self e)).2
      · exact exprsShaped_iff.mpr fun e he => (hshaped e he).1
    · exact places_refuse _
  · exact places_refuse _

/-! ### Conditions -/

theorem places_comparison {property : String} (hp : Token.isLoneName property = true) (op : CompareOp)
    (v : Value) : Places (comparison property op v) (Expr.collect markers) (Expr.Shaped .plain) := by
  have hfield : (Expr.name property).Shaped .plain := ⟨.inl (Token.isName_of_isLoneName hp), rfl⟩
  unfold comparison
  split
  · next hop =>
    intro vs e vs' h
    obtain ⟨r, us, hr, h⟩ := read_bind_eq_ok.mp h
    obtain ⟨rfl, rfl⟩ := read_pure_eq_ok.mp h
    obtain ⟨hspans, hmember⟩ := places_membership property v _ _ _ hr
    exact ⟨hspans, hfield, fun hno => absurd (hop.symm.trans hno) (by decide), fun _ => hmember⟩
  · next hop =>
    split
    · split
      · intro vs e vs' h
        obtain ⟨rfl, rfl⟩ := read_pure_eq_ok.mp h
        exact ⟨rfl, hfield, fun _ => trivial, nofun⟩
      · intro vs e vs' h
        obtain ⟨rfl, rfl⟩ := read_pure_eq_ok.mp h
        exact ⟨rfl, hfield, fun _ => trivial, nofun⟩
      · exact places_refuse _
    · intro vs e vs' h
      obtain ⟨r, us, hr, h⟩ := read_bind_eq_ok.mp h
      obtain ⟨rfl, rfl⟩ := read_pure_eq_ok.mp h
      obtain ⟨hspans, hshaped, -⟩ := places_parameter v _ _ _ hr
      exact ⟨hspans, hfield, fun _ => hshaped, fun hyes => absurd hyes hop⟩

theorem places_condition {key : String} (hkey : Token.isLoneName (splitKey (Text.trim key)).1 = true)
    (v : Value) : Places (condition key v) (Expr.collect markers) (Expr.Shaped .plain) := by
  unfold condition
  dsimp only
  split
  · exact places_comparison hkey _ v
  · exact places_refuse _

/-- An expression that was read from a text without `?`. -/
theorem spans_ofText {text : String} {e : Expr} (h : Expr.ofText text = .ok e)
    (ht : Token.isModestText text = true) (n : Nat) :
    Mark.Spans n (e.collect markers) n ∧ e.Shaped .plain := by
  obtain ⟨ts, hts, hmodest⟩ := Token.exists_of_isModestText ht
  obtain ⟨hmarks, hshaped⟩ := Parse.Builds.whole
    (Grammar.builds_finished (.nested fun n => Grammar.builds_expr (Rules.sound_upTo n)))
    (fun _ _ hd => Grammar.finished_atEnd hd) hts
    (fun t ht => Token.admits_of_isModest hts ht (hmodest t ht)) h
  exact ⟨hmarks ▸ .of_modest hts hmodest 0 n, hshaped⟩

/-- What is folded so far: its markers are numbered from `n` to the values collected so far. -/
def Folded (n : Nat) (folded : Option Expr) (vs : List Value) : Prop :=
  Mark.Spans n (collectOpt markers folded) vs.length ∧ OptShaped .plain folded

theorem Folded.none (vs : List Value) : Folded vs.length none vs := ⟨rfl, trivial⟩

theorem Folded.attach {folded : Option Expr} {op : LogicOp} {e : Expr} {n : Nat} {vs vs' : List Value}
    (hf : Folded n folded vs) (he : Folded vs.length (some e) vs') :
    Folded n (some (Assembly.attach folded op e)) vs' := by
  cases folded with
  | none =>
    obtain rfl : n = vs.length := hf.1
    exact he
  | some left => exact ⟨hf.1.append he.1, hf.2, he.2⟩

mutual
/-- One more entry keeps the markers numbered. A group starts from nothing at the values collected before
it, so what is folded before it goes on where the group ended. -/
theorem Folded.entry {folded : Option Expr} {op : LogicOp} {n : Nat} {vs vs' : List Value}
    {next : Option Expr × LogicOp} (hf : Folded n folded vs) (c : Condition) (hc : c.Plain)
    (h : Assembly.entry folded op c vs = .ok next vs') : Folded n next.1 vs' := by
  cases c with
  | connective op =>
    obtain ⟨rfl, rfl⟩ := read_pure_eq_ok.mp h
    exact hf
  | field key v =>
    obtain ⟨e, us, he, h⟩ := read_bind_eq_ok.mp h
    obtain ⟨rfl, rfl⟩ := read_pure_eq_ok.mp h
    exact hf.attach (places_condition hc v _ _ _ he)
  | raw e =>
    obtain ⟨text, htext, hmodest⟩ := hc
    obtain ⟨rfl, rfl⟩ := read_pure_eq_ok.mp h
    exact hf.attach (spans_ofText htext hmodest _)
  | group entries =>
    obtain ⟨inner, us, hinner, h⟩ := read_bind_eq_ok.mp h
    have hgroup := Folded.fold (.none vs) entries hc hinner
    cases inner with
    | some e =>
      obtain ⟨rfl, rfl⟩ := read_pure_eq_ok.mp h
      exact hf.attach hgroup
    | none =>
      obtain ⟨rfl, rfl⟩ := read_pure_eq_ok.mp h
      have hcount : vs.length = us.length := hgroup.1
      rwa [Folded, hcount] at hf
/-- **The markers of all entries are numbered**, from those folded before to the values collected. -/
theorem Folded.fold {folded : Option Expr} {op : LogicOp} {n : Nat} {vs vs' : List Value}
    {o : Option Expr} (hf : Folded n folded vs) (cs : List Condition) (hcs : ConditionsPlain cs)
    (h : Assembly.fold folded op cs vs = .ok o vs') : Folded n o vs' := by
  cases cs with
  | nil =>
    obtain ⟨rfl, rfl⟩ := read_pure_eq_ok.mp h
    exact hf
  | cons c cs =>
    obtain ⟨next, us, hnext, h⟩ := read_bind_eq_ok.mp h
    exact Folded.fold (Folded.entry hf c hcs.1 hnext) cs hcs.2 h
end

/-! ### Parts written as text -/

theorem places_detached {p : Rules → Parse α} (hp : ∀ n, Parse.Builds .plain (p (Rules.upTo n)) marks shape)
    {text : String} (ht : Token.isModestText text = true) :
    Places (ofParse (Parse.detached p text)) marks shape := by
  intro vs a vs' h
  cases ha : Parse.detached p text with
  | error e =>
    rw [ha] at h
    cases h
  | ok a' =>
    rw [ha] at h
    obtain ⟨rfl, rfl⟩ := read_pure_eq_ok.mp (show (pure _ : Assembly _) _ = _ from h)
    obtain ⟨ts, hts, hmodest⟩ := Token.exists_of_isModestText ht
    obtain ⟨hmarks, hshaped⟩ := Parse.Builds.detached hp ha hts fun t ht =>
      Token.admits_of_isModest hts ht (hmodest t ht)
    exact ⟨hmarks ▸ .of_modest hts hmodest 0 _, hshaped⟩

theorem places_resultFields {texts : List String} (h : ∀ text ∈ texts, Token.isModestText text = true) :
    Places (resultFields texts) (collectFields markers) fun fs =>
      (texts ≠ [] → fs ≠ []) ∧ FieldsShaped .plain fs := by
  have h := Places.each _ (show resultFields [] = pure [] from rfl) (fun _ _ => rfl) fun text ht =>
    places_detached (fun n => Grammar.builds_field (Rules.sound_upTo n)) (h text ht)
  rw [← funext collectFields_eq] at h
  exact h.mono fun fs hfs => ⟨hfs.1, fieldsShaped_iff.mpr hfs.2⟩

theorem places_orders {texts : List String} (h : ∀ text ∈ texts, Token.isModestText text = true) :
    Places (orders texts) (collectOrders markers) (OrdersShaped .plain) := by
  have h := Places.each order (show orders [] = pure [] from rfl) (fun _ _ => rfl) fun text ht =>
    places_detached (fun n => Grammar.builds_order (Rules.sound_upTo n)) (h text ht)
  rw [← funext collectOrders_eq] at h
  exact h.mono fun os hos => ordersShaped_iff.mpr hos.2

/-! ### Rows and assignments -/

theorem places_cell (row : List (String × Value)) (column : String) :
    Places (cell row column) (Expr.collect markers) (Expr.Shaped .plain) := by
  unfold cell
  split
  · exact (places_parameter _).mono fun _ he => he.1
  · exact places_refuse _

theorem places_cells (row : List (String × Value)) (columns : List String) :
    Places (cells row columns) (collectExprs markers) fun es =>
      (columns ≠ [] → es ≠ []) ∧ ∀ e ∈ es, e.Shaped .plain := by
  have h := Places.each (cell row) (show cells row [] = pure [] from rfl) (fun _ _ => rfl)
    fun column (_ : column ∈ columns) => places_cell row column
  rwa [← funext collectExprs_eq] at h

theorem places_valuesRow {columns : List String} (hcolumns : columns ≠ []) (row : List (String × Value)) :
    Places (valuesRow columns row) (Expr.collect markers) (Expr.RowShaped .plain) := by
  intro vs e vs' h
  obtain ⟨items, us, hitems, h⟩ := read_bind_eq_ok.mp h
  split at h
  · obtain ⟨rfl, rfl⟩ := read_pure_eq_ok.mp h
    obtain ⟨hspans, hnonempty, hshaped⟩ := places_cells row columns _ _ _ hitems
    exact ⟨hspans, items, rfl, hnonempty hcolumns, exprsShaped_iff.mpr hshaped⟩
  · cases h

theorem places_valuesRows {columns : List String} (hcolumns : columns ≠ [])
    (rows : List (List (String × Value))) :
    Places (valuesRows columns rows) (collectExprs markers) fun es =>
      (rows ≠ [] → es ≠ []) ∧ ∀ e ∈ es, e.RowShaped .plain := by
  have h := Places.each (valuesRow columns) (show valuesRows columns [] = pure [] from rfl)
    (fun _ _ => rfl) fun row (_ : row ∈ rows) => places_valuesRow hcolumns row
  rwa [← funext collectExprs_eq] at h

theorem places_assignments {vs : List (String × Value)} (h : ∀ a ∈ vs, Token.isLoneName a.1 = true) :
    Places (assignments vs) (collectAssignments markers) fun as =>
      (vs ≠ [] → as ≠ []) ∧ ∀ a ∈ as, a.target.NameShaped .plain ∧ a.value.Shaped .plain := by
  have hassigned : ∀ a ∈ vs, Places (do return ⟨.name a.1, ← parameter a.2⟩)
      (fun a : Assignment => a.target.collect markers ++ a.value.collect markers)
      fun a => a.target.NameShaped .plain ∧ a.value.Shaped .plain := by
    intro a ha us b us' hb
    obtain ⟨e, ts, he, hb⟩ := read_bind_eq_ok.mp hb
    obtain ⟨rfl, rfl⟩ := read_pure_eq_ok.mp hb
    obtain ⟨hspans, hshaped, -⟩ := places_parameter a.2 _ _ _ he
    exact ⟨hspans, ⟨a.1, Token.isName_of_isLoneName (h a ha), rfl⟩, hshaped⟩
  have h := Places.each _ (show assignments [] = pure [] from rfl) (fun _ _ => by simp [assignments])
    hassigned
  rwa [← funext collectAssignments_eq] at h

end Assembly

/-! ## Built queries -/

namespace Draft

open Assembly

theorem places_restrictions : ∀ {filters : List (List Condition)}, (∀ cs ∈ filters, ConditionsPlain cs) →
    Places (restrictions filters) (collectExprs markers) (ExprsShaped .plain)
  | [], _, vs, es, vs', h => by
    obtain ⟨rfl, rfl⟩ := read_pure_eq_ok.mp h
    exact ⟨rfl, trivial⟩
  | cs :: filters, hfilters, vs, es, vs', h => by
    obtain ⟨hcs, hfilters⟩ := List.forall_mem_cons.mp hfilters
    obtain ⟨o, us, ho, h⟩ := read_bind_eq_ok.mp h
    have hfold : Folded vs.length o us := Folded.fold (.none vs) cs hcs ho
    cases o with
    | some e =>
      obtain ⟨es, us', hes, h⟩ := read_bind_eq_ok.mp h
      obtain ⟨rfl, rfl⟩ := read_pure_eq_ok.mp h
      obtain ⟨hspans, hshaped⟩ := places_restrictions hfilters _ _ _ hes
      exact ⟨hfold.1.append hspans, hfold.2, hshaped⟩
    | none =>
      have hcount : vs.length = us.length := hfold.1
      rw [hcount]
      exact places_restrictions hfilters _ _ _ h

theorem collect_foldl_logic (op : LogicOp) : ∀ (es : List Expr) (e : Expr),
    (es.foldl (fun l r => .logic op l r) e).collect markers = e.collect markers ++ collectExprs markers es
  | [], e => (List.append_nil _).symm
  | r :: es, e => by
    rw [List.foldl_cons, collect_foldl_logic op es, Expr.collect, collectExprs, List.append_assoc]

theorem shaped_foldl_logic (op : LogicOp) : ∀ (es : List Expr) (e : Expr), e.Shaped .plain →
    ExprsShaped .plain es → (es.foldl (fun l r => .logic op l r) e).Shaped .plain
  | [], _, he, _ => he
  | r :: es, e, he, hes => shaped_foldl_logic op es (.logic op e r) ⟨he, hes.1⟩ hes.2

variable {d : Draft}

theorem places_criteria (hd : d.Plain) :
    Places d.criteria (collectOpt markers) (OptShaped .plain) := by
  intro vs o vs' h
  obtain ⟨es, us, hes, h⟩ := read_bind_eq_ok.mp h
  obtain ⟨rfl, rfl⟩ := read_pure_eq_ok.mp h
  obtain ⟨hspans, hshaped⟩ := places_restrictions hd.filters _ _ _ hes
  cases es with
  | nil => exact ⟨hspans, trivial⟩
  | cons e es =>
    refine ⟨?_, shaped_foldl_logic .and es e hshaped.1 hshaped.2⟩
    rw [Expr.joinAll, collectOpt, collect_foldl_logic]
    exact hspans

theorem labelShaped {label : Option String} (h : ∀ a, label = some a → Token.isLoneName a = true) :
    LabelShaped .plain label :=
  fun a ha => Token.isName_of_isLoneName (h a ha)

theorem shaped_table (hd : d.Plain) : d.table.Shaped .plain :=
  ⟨Token.isName_of_isLoneName hd.entity, labelShaped hd.label⟩

theorem shaped_wildcard (hd : d.Plain) : d.wildcard.expr.Shaped .plain := by
  unfold wildcard
  split
  · next label hlabel =>
    have hname := Vocabulary.plain.name_wildcard (Token.isName_of_isLoneName (hd.label label hlabel))
    rw [String.append_assoc] at hname
    exact ⟨.inl hname, rfl⟩
  · exact ⟨.inr rfl, rfl⟩

theorem shaped_rowCount (n : Nat) : (Expr.rowCount n).Shaped .plain := by
  show (min n 0x7fffffffffffffff : Nat) < 0x8000000000000000
  omega

/-- A row count has no markers. -/
theorem shaped_rowCounts (n : Option Nat) :
    collectOpt markers (n.map Expr.rowCount) = [] ∧ OptShaped .plain (n.map Expr.rowCount) := by
  cases n with
  | none => exact ⟨rfl, trivial⟩
  | some n => exact ⟨rfl, shaped_rowCount n⟩

theorem places_join {j : DraftJoin} (hj : j.Plain) :
    Places (join j) (fun j => j.table.collect markers ++ collectOpt markers j.condition)
      (Join.Shaped .plain) := by
  have htable : Table.Shaped .plain (.named j.target j.label) :=
    ⟨Token.isName_of_isLoneName hj.target, labelShaped hj.label⟩
  unfold join
  dsimp only
  split
  · next text htext =>
    intro vs k vs' h
    obtain ⟨e, us, he, h⟩ := read_bind_eq_ok.mp h
    obtain ⟨rfl, rfl⟩ := read_pure_eq_ok.mp h
    obtain ⟨hspans, hshaped⟩ := places_detached
      (fun n => Grammar.builds_expr (Rules.sound_upTo n)) (hj.condition text htext) _ _ _ he
    have hpath := RelationPath.ofName?_plain (hj.undotted (by rw [htext]; rfl))
    exact ⟨hspans, htable, hshaped, hpath.symm, nofun⟩
  · split
    · next path hpath =>
      intro vs k vs' h
      obtain ⟨rfl, rfl⟩ := read_pure_eq_ok.mp h
      exact ⟨rfl, htable, trivial, hpath.symm, nofun⟩
    · exact places_refuse _

theorem places_joinAll (hd : d.Plain) :
    Places (joinAll d.joins) (collectJoins markers) (JoinsShaped .plain) := by
  have h := Places.each join (show joinAll [] = pure [] from rfl) (fun _ _ => rfl) fun j hj =>
    places_join (hd.joins j hj)
  rw [← funext collectJoins_eq] at h
  exact h.mono fun js hjs => joinsShaped_iff.mpr hjs.2

/-- A request that is taken collects nothing. -/
theorem reject_eq_ok {present : Bool} {what : String} {u : Unit} {vs vs' : List Value}
    (h : d.reject present what vs = .ok u vs') : vs = vs' := by
  unfold reject at h
  split at h
  · cases h
  · exact (read_pure_eq_ok.mp h).2

theorem places_selected (hd : d.Plain) :
    Places d.selected (collectFields markers) fun fs => fs ≠ [] ∧ FieldsShaped .plain fs := by
  unfold selected
  split
  · intro vs fs vs' h
    obtain ⟨rfl, rfl⟩ := read_pure_eq_ok.mp h
    exact ⟨rfl, List.cons_ne_nil _ _, shaped_wildcard hd, nofun, trivial⟩
  · next hne =>
    refine (places_resultFields hd.fields).mono fun fs hfs => ⟨hfs.1 fun hnil => hne ?_, hfs.2⟩
    rw [hnil]
    rfl

theorem places_select (hd : d.Plain) :
    Places d.select (Select.collect markers) (Select.Shaped .plain) := by
  intro vs s vs' h
  obtain ⟨_, _, hreject, h⟩ := read_bind_eq_ok.mp h
  cases reject_eq_ok hreject
  obtain ⟨fields, us₁, hfields, h⟩ := read_bind_eq_ok.mp h
  obtain ⟨joins, us₂, hjoins, h⟩ := read_bind_eq_ok.mp h
  obtain ⟨criteria, us₃, hcriteria, h⟩ := read_bind_eq_ok.mp h
  obtain ⟨ordering, us₄, hordering, h⟩ := read_bind_eq_ok.mp h
  obtain ⟨rfl, rfl⟩ := read_pure_eq_ok.mp h
  obtain ⟨n₁, hnonempty, s₁⟩ := places_selected hd _ _ _ hfields
  obtain ⟨n₂, s₂⟩ := places_joinAll hd _ _ _ hjoins
  obtain ⟨n₃, s₃⟩ := places_criteria hd _ _ _ hcriteria
  obtain ⟨n₄, s₄⟩ := places_orders hd.ordering _ _ _ hordering
  obtain ⟨n₅, s₅⟩ := shaped_rowCounts d.limit
  obtain ⟨n₆, s₆⟩ := shaped_rowCounts d.offset
  refine ⟨?_, hnonempty, s₁, shaped_table hd, s₂, s₃, trivial, trivial, s₄, s₅, s₆, trivial, rfl⟩
  simp only [Select.collect, collectOptTable, table, Table.collect, collectExprs, collectOpt,
    collectUnions, n₅, n₆, markers_facts, markers_paging, List.nil_append, List.append_nil]
  exact ((n₁.append n₂).append n₃).append n₄

theorem places_insert (hd : d.Plain) :
    Places d.insert (Insert.collect markers) (Insert.Shaped .plain) := by
  intro vs i vs' h
  obtain ⟨_, _, hreject, h⟩ := read_bind_eq_ok.mp h
  cases reject_eq_ok hreject
  obtain ⟨_, _, hreject, h⟩ := read_bind_eq_ok.mp h
  cases reject_eq_ok hreject
  cases hrows : d.rows with
  | nil =>
    rw [hrows] at h
    cases h
  | cons first rest =>
    rw [hrows] at h
    obtain ⟨rows, us, hvalues, h⟩ := read_bind_eq_ok.mp h
    obtain ⟨returning, us', hreturning, h⟩ := read_bind_eq_ok.mp h
    obtain ⟨rfl, rfl⟩ := read_pure_eq_ok.mp h
    obtain ⟨hfirst, hkeys⟩ := hd.columns first (by rw [hrows]; rfl)
    have hcolumns : Pairs.keys first ≠ [] := by simpa [Pairs.keys] using hfirst
    obtain ⟨n₁, hnonempty, s₁⟩ := places_valuesRows hcolumns _ _ _ _ hvalues
    obtain ⟨n₂, -, s₂⟩ := places_resultFields hd.returning _ _ _ hreturning
    have hquiet : collectExprs markers ((Pairs.keys first).map Expr.name) = [] := by
      rw [collectExprs_eq, List.flatMap_map]
      exact List.flatMap_eq_nil_iff.mpr fun _ _ => rfl
    refine ⟨?_, shaped_table hd, ?_, ⟨hnonempty (List.cons_ne_nil _ _), s₁⟩, s₂, rfl⟩
    · simp only [Insert.collect, table, Table.collect, hquiet, InsertSource.collect, markers_facts,
        markers_returned, List.nil_append]
      exact n₁.append n₂
    · intro e he
      obtain ⟨c, hc, rfl⟩ := List.mem_map.mp he
      exact ⟨c, Token.isName_of_isLoneName (hkeys c hc), rfl⟩

theorem places_update (hd : d.Plain) :
    Places d.update (Update.collect markers) (Update.Shaped .plain) := by
  intro vs u vs' h
  obtain ⟨_, _, hreject, h⟩ := read_bind_eq_ok.mp h
  cases reject_eq_ok hreject
  by_cases hne : d.assignments.isEmpty = true
  · rw [if_pos hne] at h
    obtain ⟨_, _, h, -⟩ := read_bind_eq_ok.mp h
    cases h
  · rw [if_neg hne] at h
    obtain ⟨assigned, us₁, hassigned, h⟩ := read_bind_eq_ok.mp h
    obtain ⟨criteria, us₂, hcriteria, h⟩ := read_bind_eq_ok.mp h
    obtain ⟨ordering, us₃, hordering, h⟩ := read_bind_eq_ok.mp h
    obtain ⟨rfl, rfl⟩ := read_pure_eq_ok.mp h
    obtain ⟨n₁, hnonempty, s₁⟩ := places_assignments hd.assignments _ _ _ hassigned
    obtain ⟨n₂, s₂⟩ := places_criteria hd _ _ _ hcriteria
    obtain ⟨n₃, s₃⟩ := places_orders hd.ordering _ _ _ hordering
    obtain ⟨n₄, s₄⟩ := shaped_rowCounts d.limit
    obtain ⟨n₅, s₅⟩ := shaped_rowCounts d.offset
    refine ⟨?_, shaped_table hd, hnonempty fun hnil => hne (by rw [hnil]; rfl), s₁, s₂, s₃, s₄, s₅, rfl⟩
    simp only [Update.collect, table, Table.collect, n₄, n₅, markers_facts, markers_paging,
      List.nil_append, List.append_nil]
    exact (n₁.append n₂).append n₃

theorem places_delete (hd : d.Plain) :
    Places d.delete (Delete.collect markers) (Delete.Shaped .plain) := by
  intro vs e vs' h
  obtain ⟨_, _, hreject, h⟩ := read_bind_eq_ok.mp h
  cases reject_eq_ok hreject
  obtain ⟨criteria, us₁, hcriteria, h⟩ := read_bind_eq_ok.mp h
  obtain ⟨ordering, us₂, hordering, h⟩ := read_bind_eq_ok.mp h
  obtain ⟨rfl, rfl⟩ := read_pure_eq_ok.mp h
  obtain ⟨n₁, s₁⟩ := places_criteria hd _ _ _ hcriteria
  obtain ⟨n₂, s₂⟩ := places_orders hd.ordering _ _ _ hordering
  obtain ⟨n₃, s₃⟩ := shaped_rowCounts d.limit
  obtain ⟨n₄, s₄⟩ := shaped_rowCounts d.offset
  refine ⟨?_, shaped_table hd, s₁, s₂, s₃, s₄, rfl⟩
  simp only [Delete.collect, table, Table.collect, n₃, n₄, markers_facts, markers_paging,
    List.nil_append, List.append_nil]
  exact n₁.append n₂

/-- **A built query could have been read**: it is shaped, and its markers are numbered like its values. -/
theorem places_query (hd : d.Plain) : Places d.query (Query.collect markers) (Query.Shaped .plain) := by
  intro vs q vs' h
  rw [query] at h
  cases hstatement : d.statement with
  | select =>
    rw [hstatement] at h
    obtain ⟨s, hs, rfl⟩ := read_map_eq_ok.mp h
    exact places_select hd _ _ _ hs
  | insert =>
    rw [hstatement] at h
    obtain ⟨i, hi, rfl⟩ := read_map_eq_ok.mp h
    exact places_insert hd _ _ _ hi
  | update =>
    rw [hstatement] at h
    obtain ⟨u, hu, rfl⟩ := read_map_eq_ok.mp h
    exact places_update hd _ _ _ hu
  | delete =>
    rw [hstatement] at h
    obtain ⟨e, he, rfl⟩ := read_map_eq_ok.mp h
    exact places_delete hd _ _ _ he

/-- **Drafting and writing agree**: the text of a query that was built from a plain draft is read as that
very query, with the number of every `?`. -/
theorem ofText_build {b : Built} (hd : d.Plain) (h : d.build = .ok b) :
    Query.ofText b.query.text = .ok b.query := by
  unfold build at h
  split at h
  · next q arguments hq =>
    cases h
    obtain ⟨hspans, hshaped⟩ := places_query hd [] q arguments hq
    exact Query.ofText_of_lays Lettering.legible_plain hshaped hshaped.lays hspans.sequence
  · cases h

/-- A draft with joins, and with groups and connectives among its conditions. -/
def adults : Draft where
  statement := .select
  entity := "User"
  label := some "u"
  fields := ["u.name", "COUNT(*) AS total"]
  joins := [⟨.left, "u.posts", some "p", none⟩, ⟨.inner, "Tag", some "t", some "t.name = :tag"⟩]
  filters :=
    [[.field "u.age >=" (.int 18), .connective .or, .group [.field "u.id IN" (.array [.int 1, .int 2]), .group [],
      .field "u.mail" .null], .raw (.compare .notEq (.name "u.name") (.literal (.string "root")))],
     [.field "p.id" (.int 7)]]
  ordering := ["u.name DESC"]
  limit := some 10

/-- The groups of `adults` stand in parentheses, and so does what was joined by `OR` first. -/
def adultsText : String :=
  "SELECT u.name, COUNT(*) AS total FROM User u LEFT JOIN u.posts p INNER JOIN Tag t ON t.name = :tag "
    ++ "WHERE (u.age >= ? OR (u.id IN (?, ?) AND u.mail IS NULL)) AND u.name != 'root' AND p.id = ? "
    ++ "ORDER BY u.name DESC LIMIT 10"

theorem plain_adults : adults.Plain where
  entity := by decide +kernel
  label := by
    rintro a ⟨⟩
    decide +kernel
  fields := by decide +kernel
  joins := by
    simp only [adults, List.forall_mem_cons, List.not_mem_nil, false_imp_iff, implies_true, and_true]
    refine ⟨⟨by decide +kernel, ?_, ?_, ?_⟩, by decide +kernel, ?_, fun _ => ?_, ?_⟩
    · rintro a ⟨⟩
      decide +kernel
    · rintro ⟨⟩
    · rintro text ⟨⟩
    · rintro a ⟨⟩
      decide +kernel
    · simp [Text.Plain]
    · rintro text ⟨⟩
      decide +kernel
  filters := by
    simp only [adults, List.forall_mem_cons, List.not_mem_nil, false_imp_iff, implies_true, and_true,
      ConditionsPlain, Condition.Plain, true_and]
    refine ⟨⟨by decide +kernel, ⟨by decide +kernel, by decide +kernel⟩, "u.name <> 'root'", ?_, ?_⟩, ?_⟩
    · decide +kernel
    · decide +kernel
    · decide +kernel
  ordering := by decide +kernel
  columns := by rintro _ ⟨⟩
  assignments := by rintro _ ⟨⟩
  returning := by rintro _ ⟨⟩

theorem ofText_build_adults : ∃ b, adults.build = .ok b ∧ b.query.text = adultsText
    ∧ b.arguments = [.int 18, .int 1, .int 2, .int 7] ∧ Query.ofText adultsText = .ok b.query := by
  obtain ⟨b, hb, hview⟩ := Outcome.map_eq_ok.mp
    (show (fun b => (b.query.text, b.arguments)) <$> adults.build
      = .ok (adultsText, [.int 18, .int 1, .int 2, .int 7]) by decide +kernel)
  have htext : b.query.text = adultsText := congrArg Prod.fst hview
  exact ⟨b, hb, htext, congrArg Prod.snd hview, htext ▸ ofText_build plain_adults hb⟩

end Draft

end EntitySql
