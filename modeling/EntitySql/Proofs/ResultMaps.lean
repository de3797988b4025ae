import Mathlib
import EntitySql.Proofs.KeptFields

/-!
# Select lists and result maps

The results of a block are its fields, wildcards expanded: each wildcard over sources whose columns are
known is replaced in place by these columns, and every field of the list that is no wildcard has one
result, under its output name and in the order of the list. An output name is used once in a block.

A block is refused for a wildcard of an unknown source, for a field without an output name, and for an
output name that is used twice. Which of them is reported is a matter of order, so all that can be said of
a query with two equal names in a block is that it is refused, for a flaw that it has.

* `Results.maps_lists`: what one block becomes.
* `Results.query_error`: a query is refused for a flaw of one of its blocks.
* **`Query.analyse_lists`**: both for all passes up to the mapping of results.
-/

namespace EntitySql

open Outcome

/-! ## What stands in place of a field -/

mutual
/-- The leaves of a property at a path: those of its parts where it has some, else itself. -/
def Property.leaves (path : String) : Property → List (String × Property)
  | ⟨column, ty, nullable, []⟩ => [(path, ⟨column, ty, nullable, []⟩)]
  | ⟨_, _, _, part :: parts⟩ => partsLeaves path (part :: parts)
def partsLeaves (path : String) : List (String × Property) → List (String × Property)
  | [] => []
  | (name, p) :: ps => p.leaves (path ++ "." ++ name) ++ partsLeaves path ps
end

/-- The leaf properties of a source with their paths, in order of declaration. -/
def Source.leaves (s : Source) : List (String × Property) :=
  (s.properties.getD []).flatMap fun np => np.2.leaves np.1

/-- The sources that a wildcard covers. -/
def Sources.covered (ss : Sources) (i : Identifier) : List Source :=
  match i.qualifier? with
  | some a => (ss.byQualifier? a).toList
  | none => ss.toList

/-- What stands in place of a field: one field for each leaf of the sources that a wildcard covers, if none
of them is raw, and else the field itself. -/
def ResultField.inPlace (ss : Sources) (f : ResultField) : List ResultField :=
  match f.expr.asIdentifier? with
  | some i =>
    if i.isWildcard && !(ss.covered i).any Source.isRaw then
      (ss.covered i).flatMap fun s => s.leaves.map fun x =>
        Results.leaf s (i.qualifier?.isSome || decide (1 < ss.size)) x.1 x.2
    else [f]
  | none => [f]

namespace Results

mutual
theorem leaves_eq {s : Source} {qualify : Bool} : ∀ (p : Property) (path : String),
    leaves s qualify path p = (p.leaves path).map fun x => leaf s qualify x.1 x.2
  | ⟨_, _, _, []⟩, _ => rfl
  | ⟨_, _, _, part :: parts⟩, path => partLeaves_eq_map (part :: parts) path
theorem partLeaves_eq_map {s : Source} {qualify : Bool} : ∀ (ps : List (String × Property)) (path : String),
    partLeaves s qualify path ps = (partsLeaves path ps).map fun x => leaf s qualify x.1 x.2
  | [], _ => rfl
  | (_, p) :: ps, path => by
    rw [partLeaves, partsLeaves, List.map_append, leaves_eq p, partLeaves_eq_map ps]
end

theorem ofSource_eq (qualify : Bool) :
    ofSource qualify = fun s : Source => s.leaves.map fun x => leaf s qualify x.1 x.2 := by
  funext s
  rw [ofSource, Source.leaves, List.map_flatMap]
  simp only [leaves_eq]

theorem meant_eq_covered {ss : Sources} {i : Identifier} {means : List Source} {qualify : Bool}
    (h : meant ss i = .ok (means, qualify)) :
    means = ss.covered i ∧ qualify = (i.qualifier?.isSome || decide (1 < ss.size)) := by
  obtain ⟨q, s, hq, hs, rfl, rfl⟩ | ⟨hq, rfl, rfl⟩ := meant_eq_ok h
  · simp [Sources.covered, hq, hs]
  · simp [Sources.covered, hq]

/-- An expansion is what stands in place of its field. -/
theorem inPlace_eq {ss : Sources} {f : ResultField} {x : Option (List ResultField)}
    (h : expansion ss f = .ok x) : f.inPlace ss = x.getD [f] := by
  unfold expansion at h
  unfold ResultField.inPlace
  cases hi : f.expr.asIdentifier? with
  | none =>
    rw [hi] at h
    cases h
    rfl
  | some i =>
    simp only [hi] at h ⊢
    split at h
    · next hw =>
      obtain ⟨⟨means, qualify⟩, hmeant, h⟩ := bind_eq_ok.mp h
      obtain ⟨rfl, rfl⟩ := meant_eq_covered hmeant
      cases h
      cases hraw : (ss.covered i).any Source.isRaw with
      | true => simp [hw]
      | false => simp [hw, ofSource_eq]
    · next hw =>
      cases h
      simp [hw]

end Results

/-! ## Output names -/

/-- The name under which a field is returned: its alias; else the property that its name means; else the
last segment of the name. -/
def ResultField.outputName? (f : ResultField) : Option String :=
  match f.label with
  | some label => some label
  | none => f.expr.underlying?.map fun i => (i.resolution.bind (·.property)).getD i.name

/-- The output names of the fields that are no wildcards; `none` for a field without one. -/
def outputNames (fs : List ResultField) : List (Option String) :=
  (fs.filter fun f => !f.isWildcard).map ResultField.outputName?

theorem outputNames_append (fs gs : List ResultField) :
    outputNames (fs ++ gs) = outputNames fs ++ outputNames gs := by
  rw [outputNames, List.filter_append, List.map_append]
  rfl

theorem outputNames_cons (f : ResultField) (fs : List ResultField) :
    outputNames (f :: fs) = outputNames [f] ++ outputNames fs := outputNames_append [f] fs

theorem outputNames_wildcard {f : ResultField} (h : f.isWildcard = true) : outputNames [f] = [] := by
  simp [outputNames, h]

theorem outputNames_singleton {f : ResultField} (h : f.isWildcard = false) : outputNames [f] = [f.outputName?] := by
  simp [outputNames, h]

namespace Results

theorem outputName?_of_names {f : ResultField} {name label : String} (h : names f = .ok (name, label)) :
    f.outputName? = some name := by
  unfold names at h
  unfold ResultField.outputName?
  split at h
  · next hlabel =>
    cases h
    simp only [hlabel]
  · next hlabel =>
    split at h
    · cases h
    · next hi =>
      cases h
      simp only [hlabel, hi, Option.map_some]

theorem outputName?_of_names_error {f : ResultField} {e : QueryError} (h : names f = .error e) :
    f.outputName? = none ∧ e = .missingAlias f.expr.text := by
  unfold names at h
  unfold ResultField.outputName?
  split at h
  · cases h
  · next hlabel =>
    split at h
    · next hi =>
      cases h
      simp only [hlabel, hi, Option.map_none, and_self]
    · cases h

end Results

/-! ### Names that stay -/

theorem Expr.asIdentifier?_eq {e e' : Expr} (hframe : e'.frame = e.frame) (hidents : e'.idents = e.idents) :
    e'.asIdentifier? = e.asIdentifier? := by
  cases e with
  | ident i =>
    cases e' with
    | ident i' => exact congrArg some (List.singleton_inj.mp hidents)
    | _ => cases hframe
  | _ =>
    cases e' with
    | ident => cases hframe
    | _ => rfl

theorem Expr.underlying?_eq : ∀ {e e' : Expr}, e'.frame = e.frame → e'.idents = e.idents →
    e'.underlying? = e.underlying?
  | .ident i, e', hframe, hidents => by
    cases e' with
    | ident i' => exact congrArg some (List.singleton_inj.mp hidents)
    | _ => cases hframe
  | .unary op e, e', hframe, hidents => by
    cases e' with
    | unary op' e' =>
      obtain ⟨-, hframe⟩ := Expr.unary.inj hframe
      exact (underlying?_eq hframe hidents : e'.underlying? = e.underlying?)
    | _ => cases hframe
  | .literal _, e', hframe, _ | .marker _, e', hframe, _ | .named _, e', hframe, _ | .call .., e', hframe, _
  | .list _, e', hframe, _ | .arith .., e', hframe, _ | .compare .., e', hframe, _ | .logic .., e', hframe, _
  | .case .., e', hframe, _ | .subquery _, e', hframe, _ => by
    cases e' with
    | ident => cases hframe
    | unary => cases hframe
    | _ => rfl

namespace ResultField.Keeps

variable {f f' : ResultField}

theorem refl (f : ResultField) : f.Keeps Eq f := ⟨rfl, rfl, List.forall₂_refl _⟩

theorem asIdentifier?_eq (h : f.Keeps Eq f') : f'.expr.asIdentifier? = f.expr.asIdentifier? :=
  Expr.asIdentifier?_eq h.frame h.idents_eq

theorem isWildcard_eq (h : f.Keeps Eq f') : f'.isWildcard = f.isWildcard := by
  rw [isWildcard, isWildcard, h.asIdentifier?_eq]

theorem outputName?_eq (h : f.Keeps Eq f') : f'.outputName? = f.outputName? := by
  rw [outputName?, outputName?, h.label, Expr.underlying?_eq h.frame h.idents_eq]

theorem outputNames_eq (h : f.Keeps Eq f') : outputNames [f'] = outputNames [f] := by
  cases hw : f.isWildcard with
  | true => rw [outputNames_wildcard hw, outputNames_wildcard (h.isWildcard_eq.trans hw)]
  | false =>
    rw [outputNames_singleton hw, outputNames_singleton (h.isWildcard_eq.trans hw), h.outputName?_eq]

/-- A field that stands for itself does so in other words too. -/
theorem inPlace_eq {ss : Sources} (h : f.Keeps Eq f') (hf : f.inPlace ss = [f]) : f'.inPlace ss = [f'] := by
  obtain ⟨e, label⟩ := f
  cases hi : e.asIdentifier? with
  | some i =>
    obtain rfl := e.eq_ident hi
    obtain ⟨i', rfl, rfl⟩ := h.ident
    exact hf
  | none => rw [inPlace, h.asIdentifier?_eq, hi]

end ResultField.Keeps

/-! ## Results of fields -/

/-- The second facts have the results of the first and those of the fields, whose names are not used before. -/
structure Facts.Adds (fs : List ResultField) (f f' : Facts) : Prop where
  keys : (Pairs.keys f'.results).map some = (Pairs.keys f.results).map some ++ outputNames fs
  nodup : (Pairs.keys f.results).Nodup → (Pairs.keys f'.results).Nodup

namespace Facts.Adds

variable {f g h : Facts} {fs gs : List ResultField}

theorem nil (f : Facts) : f.Adds [] f := ⟨(List.append_nil _).symm, id⟩

theorem append (hf : f.Adds fs g) (hg : g.Adds gs h) : f.Adds (fs ++ gs) h :=
  ⟨by rw [hg.keys, hf.keys, outputNames_append, List.append_assoc], fun hnodup => hg.nodup (hf.nodup hnodup)⟩

end Facts.Adds

theorem Pairs.contains_eq_true {α : Type} {key : String} : ∀ {m : List (String × α)},
    contains key m = true ↔ key ∈ keys m
  | [] => by simp [contains, find?, keys]
  | (k, v) :: rest => by
    have ih : contains key rest = true ↔ key ∈ keys rest := contains_eq_true
    unfold contains at ih ⊢
    rw [find?]
    split
    · next hk => simp [keys, hk]
    · next hk =>
      rw [ih, keys, keys, List.map_cons, List.mem_cons]
      exact ⟨.inr, fun h => h.resolve_left (Ne.symm hk)⟩

namespace Results

variable {visible : List Facts}

theorem keeps_expr {scopes : List Facts} {e e' : Expr} (label : Option String) (h : expr scopes e = .ok e') :
    ResultField.Keeps Eq ⟨e, label⟩ ⟨e', label⟩ := by
  obtain ⟨hframe, hidents⟩ := (makes.expr e (p := ⟨[], false⟩) h).1.keeps id
  exact ⟨rfl, hframe, hidents.imp fun _ _ hi => Eq.symm hi⟩

theorem adds_register {f f' : Facts} {field : ResultField} (h : register visible f field = .ok f') :
    f.Adds [field] f' := by
  unfold register at h
  split at h
  · next hw =>
    cases h
    exact ⟨by rw [outputNames_wildcard hw, List.append_nil], id⟩
  · next hw =>
    simp only [bind_eq_ok] at h
    obtain ⟨⟨name, label⟩, hnames, h⟩ := h
    unfold Facts.addResult at h
    split at h
    · cases h
    · next hfree =>
      cases h
      have hname : name ∉ Pairs.keys f.results := fun hmem => hfree (Pairs.contains_eq_true.mpr hmem)
      have hkeys : ∀ column, Pairs.keys (f.results ++ [(name, column)]) = Pairs.keys f.results ++ [name] :=
        fun _ => List.map_append
      refine ⟨?_, fun hnodup => ?_⟩
      · rw [hkeys, outputNames_singleton (Bool.eq_false_iff.mpr hw), outputName?_of_names hnames, List.map_append]
        rfl
      · rw [hkeys, ← List.concat_eq_append]
        exact hnodup.concat hname

theorem adds_registerAll : ∀ {fs : List ResultField} {f f' : Facts},
    registerAll visible f fs = .ok f' → f.Adds fs f'
  | [], _, _, h => by
    cases h
    exact .nil _
  | field :: fs, _, _, h => by
    obtain ⟨f₁, hf₁, h⟩ := bind_eq_ok.mp h
    exact (adds_register hf₁).append (adds_registerAll h)

/-- **The fields of a block with mapped results**: what stands in place of its fields, up to their
subqueries. Their names are added to the results. -/
theorem lists_fields {ss : Sources} : ∀ {fs : List ResultField} {f f' : Facts} {xs fs'},
    List.Forall₂ (fun f x => expansion ss f = .ok x) fs xs → fields visible f fs xs = .ok (fs', f') →
    (∃ kept, List.Forall₂ (ResultField.Keeps Eq) fs kept ∧ fs' = kept.flatMap (ResultField.inPlace ss))
      ∧ f.Adds fs' f'
  | [], _, _, _, _, _, h => by
    simp only [fields, pure_eq_ok] at h
    cases h
    exact ⟨⟨[], .nil, rfl⟩, .nil _⟩
  | ⟨e, label⟩ :: fs, _, _, some expanded :: xs, _, .cons hx hxs, h => by
    simp only [fields, bind_eq_ok, pure_eq_ok] at h
    obtain ⟨f₁, hf₁, ⟨fs', f₂⟩, hfs, h⟩ := h
    cases h
    obtain ⟨⟨kept, hkept, rfl⟩, hadds⟩ := lists_fields hxs hfs
    refine ⟨⟨⟨e, label⟩ :: kept, .cons (.refl _) hkept, ?_⟩, (adds_registerAll hf₁).append hadds⟩
    rw [List.flatMap_cons, inPlace_eq hx]
    rfl
  | ⟨e, label⟩ :: fs, _, _, none :: xs, _, .cons hx hxs, h => by
    simp only [fields, bind_eq_ok, pure_eq_ok] at h
    obtain ⟨e', he, f₁, hf₁, ⟨fs', f₂⟩, hfs, h⟩ := h
    cases h
    obtain ⟨⟨kept, hkept, rfl⟩, hadds⟩ := lists_fields hxs hfs
    have hkeeps := keeps_expr label he
    refine ⟨⟨⟨e', label⟩ :: kept, .cons hkeeps hkept, ?_⟩, (adds_register hf₁).append hadds⟩
    rw [List.flatMap_cons, hkeeps.inPlace_eq (inPlace_eq hx)]
    rfl

end Results

/-! ## Blocks -/

/-- What becomes of a block: its names are resolved, what stands in place of each field takes its place, and
the output names of the list are the keys of its results, each of them once. -/
structure Block.Lists (b b' : Block) : Prop where
  fields : ∃ kept, List.Forall₂ (ResultField.Resolves b'.facts.sources) b.fields kept
    ∧ b'.fields = kept.flatMap (ResultField.inPlace b'.facts.sources)
  keys : (Pairs.keys b'.facts.results).map some = outputNames b'.fields
  nodup : (Pairs.keys b'.facts.results).Nodup

theorem Block.Maps.sources_eq {b b' : Block} (h : b.Maps b') : b'.facts.sources = b.facts.sources := by
  obtain ⟨visible, xs, hxs, hfields⟩ := h
  exact Results.sources_fields hxs hfields

/-- **What becomes of one block** once its results are mapped. -/
theorem Results.maps_lists {b b' b'' : Block} (h : b.Resolves b') (hnone : b'.facts.results = [])
    (h' : b'.Maps b'') : b.Lists b'' := by
  have hsources := h'.sources_eq
  obtain ⟨visible, xs, hxs, hfields⟩ := h'
  obtain ⟨⟨kept, hkept, hlist⟩, hadds⟩ := lists_fields (expansions_eq_ok hxs) hfields
  rw [← hsources] at hlist
  refine ⟨⟨kept, ?_, hlist⟩, ?_, ?_⟩
  · refine forall₂_comp (fun f f' f'' hf hf' => ?_) h.fields hkept
    exact hsources ▸ ⟨hf.toKeeps.after hf', hf'.isWildcard_eq.trans hf.wildcard⟩
  · rw [hadds.keys, hnone]
    rfl
  · exact hadds.nodup (by rw [hnone]; exact List.nodup_nil)

/-! ## Flaws -/

/-- The output names of a block, once names are resolved. -/
def Block.outputNames (b : Block) : List (Option String) :=
  EntitySql.outputNames (b.fields.flatMap (ResultField.inPlace b.facts.sources))

/-- A wildcard among the fields is qualified by a name that no source answers to. -/
inductive Astray (ss : Sources) (fs : List ResultField) : QueryError → Prop
  | mk {i label a} : ⟨.ident i, label⟩ ∈ fs → i.isWildcard = true → i.qualifier? = some a →
    ss.byQualifier? a = none → Astray ss fs (.unknownAlias a)

/-- One of the output names is missing, or one is used twice. -/
inductive Misnamed (ns : List (Option String)) : QueryError → Prop
  | missing (text : String) : none ∈ ns → Misnamed ns (.missingAlias text)
  | repeated {name : String} : 1 < ns.count (some name) → Misnamed ns (.duplicateResultAlias name)

theorem Misnamed.mono {ns ms : List (Option String)} {x : QueryError} (h : Misnamed ns x) (hsub : ns.Sublist ms) :
    Misnamed ms x := by
  cases h with
  | missing text hmem => exact .missing text (hsub.subset hmem)
  | repeated hcount => exact .repeated (Nat.lt_of_lt_of_le hcount (hsub.count_le _))

/-- What a block is refused for. -/
def Block.Flaw (b : Block) (x : QueryError) : Prop := Astray b.facts.sources b.fields x ∨ Misnamed b.outputNames x

/-- What one of the selects is refused for, if it has results already. -/
def Results.Refused (ss : List Select) (x : QueryError) : Prop :=
  ∃ s ∈ ss, Astray s.facts.sources s.fields x
    ∨ Misnamed ((Pairs.keys s.facts.results).map some ++ s.block.outputNames) x

namespace Results

variable {x : QueryError}

/-- Whatever one of the selects is refused for is an error of `P`. -/
def Blames (P : QueryError → Prop) (ss : List Select) : Prop := ∀ x, Refused ss x → P x

section

variable {P : QueryError → Prop} {ss ts : List Select}

theorem blames_cons {s : Select} : Blames P (s :: ss) ↔ (∀ x, Astray s.facts.sources s.fields x
    ∨ Misnamed ((Pairs.keys s.facts.results).map some ++ s.block.outputNames) x → P x) ∧ Blames P ss := by
  simp only [Blames, Refused, List.exists_mem_cons_iff, or_imp, forall_and]

theorem blames_append : Blames P (ss ++ ts) ↔ Blames P ss ∧ Blames P ts := by
  simp only [Blames, Refused, List.mem_append, or_and_right, exists_or, or_imp, forall_and]

theorem Blames.left (h : Blames P (ss ++ ts)) : Blames P ss := (blames_append.mp h).1

theorem Blames.right (h : Blames P (ss ++ ts)) : Blames P ts := (blames_append.mp h).2

end

theorem astray_of_expansions {ss : Sources} : ∀ {fs : List ResultField}, expansions ss fs = .error x → Astray ss fs x
  | [], h => by cases h
  | ⟨e, label⟩ :: fs, h => by
    simp only [expansions, bind_eq_error] at h
    rcases h with h | ⟨_, -, h | ⟨_, -, h⟩⟩
    · unfold expansion at h
      split at h
      · cases h
      · next i hi =>
        obtain rfl := e.eq_ident hi
        split at h
        · next hw =>
          rcases bind_eq_error.mp h with h | ⟨_, -, h⟩
          · unfold meant at h
            split at h
            · next a ha =>
              split at h
              · cases h
              · next hnone =>
                cases h
                exact .mk List.mem_cons_self hw ha hnone
            · cases h
          · cases h
        · cases h
    · obtain ⟨hmem, hw, ha, hnone⟩ := astray_of_expansions h
      exact .mk (List.mem_cons_of_mem _ hmem) hw ha hnone
    · cases h

variable {visible : List Facts}

theorem misnamed_of_register {f : Facts} {field : ResultField} (h : register visible f field = .error x) :
    Misnamed ((Pairs.keys f.results).map some ++ outputNames [field]) x := by
  unfold register at h
  split at h
  · cases h
  · next hw =>
    rw [outputNames_singleton (Bool.eq_false_iff.mpr hw)]
    simp only [bind_eq_error] at h
    rcases h with h | ⟨⟨name, label⟩, hnames, h⟩
    · obtain ⟨hnone, rfl⟩ := outputName?_of_names_error h
      exact .missing _ (by simp [hnone])
    · unfold Facts.addResult at h
      split at h <;> cases h
      next htaken =>
      have hmem : some name ∈ (Pairs.keys f.results).map some :=
        List.mem_map_of_mem (Pairs.contains_eq_true.mp htaken)
      refine .repeated ?_
      rw [outputName?_of_names hnames, List.count_append, List.count_singleton_self]
      exact Nat.succ_lt_succ (List.count_pos_iff.mpr hmem)

theorem misnamed_of_registerAll : ∀ {fs : List ResultField} {f : Facts},
    registerAll visible f fs = .error x → Misnamed ((Pairs.keys f.results).map some ++ outputNames fs) x
  | [], _, h => by cases h
  | field :: fs, _, h => by
    rw [outputNames_cons, ← List.append_assoc]
    rcases bind_eq_error.mp h with h | ⟨f₁, hf₁, h⟩
    · exact (misnamed_of_register h).mono (List.sublist_append_left _ _)
    · rw [← (adds_register hf₁).keys]
      exact misnamed_of_registerAll h

/-! ### All blocks of a query -/

section

variable {P : QueryError → Prop}

mutual
theorem failsWith_expr {scopes} : ∀ e : Expr, Blames P e.selects → FailsWith P (expr scopes e)
  | .ident _, _ | .literal _, _ | .marker _, _ | .named _, _ => .pure _
  | .call _ _ args, h => .bind (failsWith_exprs args h) fun _ _ => .pure _
  | .list items, h => .bind (failsWith_exprs items h) fun _ _ => .pure _
  | .arith _ l r, h | .compare _ l r, h | .logic _ l r, h =>
    .bind (failsWith_expr l h.left) fun _ _ => .bind (failsWith_expr r h.right) fun _ _ => .pure _
  | .unary _ e, h => .bind (failsWith_expr e h) fun _ _ => .pure _
  | .case o bs e, h => .bind (failsWith_opt o h.left.left) fun _ _ =>
    .bind (failsWith_branches bs h.left.right) fun _ _ => .bind (failsWith_opt e h.right) fun _ _ => .pure _
  | .subquery s, h => .bind (failsWith_select s h) fun _ _ => .pure _
theorem failsWith_exprs {scopes} : ∀ es : List Expr, Blames P (exprsSelects es) → FailsWith P (exprs scopes es)
  | [], _ => .pure _
  | e :: es, h => .bind (failsWith_expr e h.left) fun _ _ => .bind (failsWith_exprs es h.right) fun _ _ => .pure _
theorem failsWith_opt {scopes} : ∀ o : Option Expr, Blames P (optSelects o) → FailsWith P (optExpr scopes o)
  | none, _ => .pure _
  | some e, h => .bind (failsWith_expr e h) fun _ _ => .pure _
theorem failsWith_branches {scopes} : ∀ bs : List Branch, Blames P (branchesSelects bs) →
    FailsWith P (branches scopes bs)
  | [], _ => .pure _
  | ⟨c, r⟩ :: bs, h => .bind (failsWith_expr c h.left.left) fun _ _ =>
    .bind (failsWith_expr r h.left.right) fun _ _ => .bind (failsWith_branches bs h.right) fun _ _ => .pure _
/-- Fields are refused for a select inside them, or for their own output names after those before. -/
theorem failsWith_fields {visible f ss} : ∀ (fs : List ResultField) {xs},
    List.Forall₂ (fun f x => expansion ss f = .ok x) fs xs → Blames P (fieldsSelects fs) →
    (∀ x, Misnamed ((Pairs.keys f.results).map some ++ outputNames (fs.flatMap (ResultField.inPlace ss))) x → P x) →
    FailsWith P (fields visible f fs xs)
  | [], _, .nil, _, _ => .pure _
  | ⟨e, _⟩ :: fs, some expanded :: xs, .cons hx hxs, h, hnames => by
    rw [List.flatMap_cons, inPlace_eq hx, Option.getD_some, outputNames_append, ← List.append_assoc] at hnames
    refine .bind (fun x hx => hnames x ((misnamed_of_registerAll hx).mono (List.sublist_append_left _ _))) fun _ hf₁ => ?_
    rw [← (adds_registerAll hf₁).keys] at hnames
    exact .bind (failsWith_fields fs hxs h.right hnames) fun _ _ => .pure _
  | ⟨e, label⟩ :: fs, none :: xs, .cons hx hxs, h, hnames => by
    rw [List.flatMap_cons, inPlace_eq hx, Option.getD_none, outputNames_append, ← List.append_assoc] at hnames
    refine .bind (failsWith_expr e h.left) fun _ he => ?_
    rw [← (keeps_expr label he).outputNames_eq] at hnames
    refine .bind (fun x hx => hnames x ((misnamed_of_register hx).mono (List.sublist_append_left _ _))) fun _ hf₁ => ?_
    rw [← (adds_register hf₁).keys] at hnames
    exact .bind (failsWith_fields fs hxs h.right hnames) fun _ _ => .pure _
theorem failsWith_orders {scopes} : ∀ os : List OrderItem, Blames P (ordersSelects os) →
    FailsWith P (orders scopes os)
  | [], _ => .pure _
  | ⟨e, _⟩ :: os, h =>
    .bind (failsWith_expr e h.left) fun _ _ => .bind (failsWith_orders os h.right) fun _ _ => .pure _
theorem failsWith_table : ∀ t : Table, Blames P t.selects → FailsWith P (table t)
  | .named _ _, _ => .pure _
  | .derived s _, h => .bind (failsWith_select s h) fun _ _ => .pure _
theorem failsWith_optTable : ∀ t : Option Table, Blames P (optTableSelects t) → FailsWith P (optTable t)
  | none, _ => .pure _
  | some t, h => .bind (failsWith_table t h) fun _ _ => .pure _
theorem failsWith_joins {scopes} : ∀ js : List Join, Blames P (joinsSelects js) → FailsWith P (joins scopes js)
  | [], _ => .pure _
  | ⟨_, t, c, _⟩ :: js, h => .bind (failsWith_table t h.left.left) fun _ _ =>
    .bind (failsWith_opt c h.left.right) fun _ _ => .bind (failsWith_joins js h.right) fun _ _ => .pure _
theorem failsWith_unions : ∀ us : List UnionPart, Blames P (unionsSelects us) → FailsWith P (unions us)
  | [], _ => .pure _
  | ⟨_, s⟩ :: us, h => .bind (failsWith_select s h.left) fun _ _ => .bind (failsWith_unions us h.right) fun _ _ => .pure _
theorem failsWith_select {visible} : ∀ s : Select, Blames P s.selects → FailsWith P (select visible s)
  | ⟨_, fs, t, js, c, gs, hv, os, l, o, us, f⟩, h => by
    simp only [Select.selects, List.cons_append, blames_cons, blames_append] at h
    obtain ⟨hself, ⟨⟨⟨⟨⟨⟨⟨⟨hfs, ht⟩, hjs⟩, hc⟩, hgs⟩, hhv⟩, hos⟩, hl⟩, ho⟩, hus⟩ := h
    exact .bind (fun x hx => hself x (.inl (astray_of_expansions hx))) fun _ hxs =>
      .bind (failsWith_fields fs (expansions_eq_ok hxs) hfs fun x hx => hself x (.inr hx)) fun _ _ =>
      .bind (failsWith_optTable t ht) fun _ _ => .bind (failsWith_joins js hjs) fun _ _ =>
      .bind (failsWith_opt c hc) fun _ _ => .bind (failsWith_exprs gs hgs) fun _ _ =>
      .bind (failsWith_opt hv hhv) fun _ _ => .bind (failsWith_orders os hos) fun _ _ =>
      .bind (failsWith_opt l hl) fun _ _ => .bind (failsWith_opt o ho) fun _ _ =>
      .bind (failsWith_unions us hus) fun _ _ => .pure _
end

theorem failsWith_assignments : ∀ {as : List Assignment} {scopes},
    Blames P (as.flatMap fun a => a.target.selects ++ a.value.selects) → FailsWith P (assignments scopes as)
  | [], _, _ => .pure _
  | ⟨t, v⟩ :: _, _, h => by
    rw [List.flatMap_cons] at h
    exact .bind (failsWith_expr t h.left.left) fun _ _ => .bind (failsWith_expr v h.left.right) fun _ _ =>
      .bind (failsWith_assignments h.right) fun _ _ => .pure _

theorem failsWith_insertSource {scopes : List Facts} : ∀ {s : InsertSource}, Blames P s.selects →
    FailsWith P (insertSource scopes s)
  | .values rows, h => .bind (failsWith_exprs rows h) fun _ _ => .pure _
  | .select s, h => .bind (failsWith_select s h) fun _ _ => .pure _

end

/-- **A query is refused for a flaw of one of its blocks**, as long as no results are mapped. -/
theorem query_error {q : Query} (hnone : ∀ b ∈ q.blocks, b.facts.results = []) :
    FailsWith (fun x => ∃ b ∈ q.blocks, b.Flaw x) (query q) := by
  have hq : Blames (fun x => ∃ b ∈ q.blocks, b.Flaw x) q.selects := by
    rintro x ⟨s, hs, hx⟩
    have hmem := Query.select_mem_blocks hs
    have hresults : s.facts.results = [] := hnone _ hmem
    rw [hresults] at hx
    exact ⟨s.block, hmem, hx⟩
  cases q with
  | select s => exact .map _ (failsWith_select s hq)
  | insert i =>
    have hself : (⟨[i.table], i.returning, i.facts⟩ : Block) ∈ (Query.insert i).blocks := List.mem_cons_self
    have hresults : i.facts.results = [] := hnone _ hself
    exact .map _ (.bind (fun x hx => ⟨_, hself, .inl (astray_of_expansions hx)⟩) fun _ hxs =>
      .bind (failsWith_table _ hq.left.left.left) fun _ _ => .bind (failsWith_exprs _ hq.left.left.right) fun _ _ =>
      .bind (failsWith_insertSource hq.left.right) fun _ _ =>
      .bind (failsWith_fields _ (expansions_eq_ok hxs) hq.right fun x hx =>
        ⟨_, hself, .inr (by rw [hresults] at hx; exact hx)⟩) fun _ _ => .pure _)
  | update u =>
    exact .map _ (.bind (failsWith_table _ hq.left.left.left.left.left) fun _ _ =>
      .bind (failsWith_assignments hq.left.left.left.left.right) fun _ _ =>
      .bind (failsWith_opt _ hq.left.left.left.right) fun _ _ =>
      .bind (failsWith_orders _ hq.left.left.right) fun _ _ => .bind (failsWith_opt _ hq.left.right) fun _ _ =>
      .bind (failsWith_opt _ hq.right) fun _ _ => .pure _)
  | delete d =>
    exact .map _ (.bind (failsWith_table _ hq.left.left.left.left) fun _ _ =>
      .bind (failsWith_opt _ hq.left.left.left.right) fun _ _ =>
      .bind (failsWith_orders _ hq.left.left.right) fun _ _ => .bind (failsWith_opt _ hq.left.right) fun _ _ =>
      .bind (failsWith_opt _ hq.right) fun _ _ => .pure _)

/-- Fields that stay have the output names that they had. -/
theorem outputNames_keeps {ss : Sources} {fs fs' : List ResultField}
    (h : List.Forall₂ (ResultField.Keeps Eq) fs fs') :
    outputNames (fs'.flatMap (ResultField.inPlace ss)) = outputNames (fs.flatMap (ResultField.inPlace ss)) := by
  induction h with
  | nil => rfl
  | @cons f f' _ _ hf _ ih =>
    rw [List.flatMap_cons, List.flatMap_cons, outputNames_append, outputNames_append, ih]
    congr 1
    obtain ⟨e, label⟩ := f
    cases hi : e.asIdentifier? with
    | some i =>
      obtain rfl := e.eq_ident hi
      obtain ⟨i', rfl, rfl⟩ := hf.ident
      rfl
    | none =>
      have hplace : ResultField.inPlace ss ⟨e, label⟩ = [⟨e, label⟩] := by rw [ResultField.inPlace, hi]
      rw [hf.inPlace_eq hplace, hplace, hf.outputNames_eq]

/-- A block whose results are mapped has no flaw. -/
theorem not_flaw_of_maps {b b' : Block} (hnone : b.facts.results = []) (h : b.Maps b') : ¬ b.Flaw x := by
  obtain ⟨visible, xs, hxs, hfields⟩ := h
  obtain ⟨⟨kept, hkept, hlist⟩, hadds⟩ := lists_fields (expansions_eq_ok hxs) hfields
  have hkeys : (Pairs.keys b'.facts.results).map some = b.outputNames := by
    rw [hadds.keys, hnone, hlist, outputNames_keeps hkept]
    rfl
  have hnodup : b.outputNames.Nodup :=
    hkeys ▸ (hadds.nodup (by rw [hnone]; exact List.nodup_nil)).map (Option.some_injective _)
  rintro (hastray | hmisnamed)
  · obtain ⟨hmem, hw, ha, hmissing⟩ := hastray
    obtain ⟨found, -, hexpansion⟩ := Interleaved.exists_of_mem
      (Interleaved.of_forall₂ (I := fun _ => False) (expansions_eq_ok hxs).flip) _ hmem |>.resolve_right id
    simp [expansion, Expr.asIdentifier?, hw, meant, ha, hmissing] at hexpansion
  · cases hmisnamed with
    | missing _ hmem =>
      rw [← hkeys] at hmem
      simp at hmem
    | repeated hcount => exact absurd (List.nodup_iff_count_le_one.mp hnodup _) (Nat.not_le.mpr hcount)

end Results

/-! ## All passes up to the mapping of results -/

theorem Select.Shaped.facts_eq {V : Vocabulary} {s : Select} (h : s.Shaped V) : s.facts = {} := by
  cases s
  obtain ⟨-, -, -, -, -, -, -, -, -, -, -, hfacts⟩ := h
  exact hfacts

theorem Query.Shaped.facts_of_mem_blocks {V : Vocabulary} {q : Query} (h : q.Shaped V) :
    ∀ b ∈ q.blocks, b.facts = {} := by
  intro b hb
  rcases List.mem_append.mp hb with hb | hb
  · have hfacts := h.facts_eq
    cases q with
    | select s => cases hb
    | insert i | update u | delete d =>
      cases List.mem_singleton.mp hb
      exact hfacts
  · obtain ⟨s, hs, rfl⟩ := List.mem_map.mp hb
    exact (h.covers.selects s hs).facts_eq

theorem Schema.HasInFilter.facts_eq {schema : Schema} {s : Select} (h : schema.HasInFilter s) : s.facts = {} := by
  obtain ⟨text, -, x, hx, hs⟩ := h
  exact ((Expr.Shaped.covers x (Expr.shaped_of_ofDetached hx)).selects s hs).facts_eq

namespace Query

variable {n : Naming} {q c r : Query}

/-- No results are mapped by the first four passes. -/
theorem Named.results_eq (hn : n.schema.Starless) (hq : q.Shaped .all) (h : q.Named n c) :
    ∀ b ∈ c.blocks, b.facts.results = [] := by
  intro b hb
  rcases (Named.resolves hq hn h).exists_of_mem b hb with ⟨a, ha, hresolves⟩ | ⟨s, hs, hresolves⟩
  · rw [hresolves.results, hq.facts_of_mem_blocks a ha]
  · rw [hresolves.results, Select.block, hs.facts_eq]

theorem Named.analyse_eq (h : q.Named n c) : q.analyse n = QueryError.lift (Results.query c) := by
  have hall : Pass.analysis = [Pass.sources, .derived, .joins, .columns] ++ [.results] := rfl
  rw [analyse, hall, List.foldlM_append, (h : _ = Except.ok c)]
  change (QueryError.lift (Results.query c) >>= pure) = _
  rw [bind_pure]

theorem analyse_named (h : q.analyse n = .ok r) : ∃ c, q.Named n c ∧ Results.query c = .ok r := by
  have hall : Pass.analysis = [Pass.sources, .derived, .joins, .columns] ++ [.results] := rfl
  rw [analyse, hall, List.foldlM_append, bind_eq_ok] at h
  obtain ⟨c, hc, h⟩ := h
  simp only [List.foldlM_cons, List.foldlM_nil, Pass.run, bind_eq_ok, pure_eq_ok, Joins.lift_query_eq_ok] at h
  obtain ⟨r', hr, rfl⟩ := h
  exact ⟨c, hc, hr⟩

end Query

/-- **The result map is the select list**, where no column of an entity ends in a `*`. The blocks of a query
whose results are mapped are its blocks in order, and those of filters. In each, every wildcard over known
sources is replaced by their columns, every other field stays, with its names resolved, and the results are
the output names of the list. Once names are resolved, a query is refused exactly if a block has a flaw, such
as two equal output names, and for a flaw that it has. -/
theorem Query.analyse_lists {n : Naming} (hn : n.schema.Starless) {text : String} {q : Query}
    (hq : Query.ofText text = .ok q) :
    (∀ r, q.analyse n = .ok r →
      Interleaved Block.Lists (fun b => ∃ s, n.schema.HasInFilter s ∧ s.block.Lists b) q.blocks r.blocks)
      ∧ ∀ c, q.Named n c → (∀ e, q.analyse n = .error e → ∃ x, e = .query x ∧ ∃ b ∈ c.blocks, b.Flaw x)
        ∧ ∀ b ∈ c.blocks, ∀ x, b.Flaw x → ∃ e, q.analyse n = .error e := by
  have hshaped := Query.shaped_of_ofText hq
  refine ⟨fun r hr => ?_, fun c hc => ⟨fun e he => ?_, fun b hb x hx => ?_⟩⟩
  · obtain ⟨c, hc, hr⟩ := analyse_named hr
    have hresolves := (Named.resolves hshaped hn hc).and_mem (Named.results_eq hn hshaped hc)
    have hmaps : Interleaved Block.Maps (fun b => ∃ s, n.schema.HasInFilter s ∧ s.block.Lists b) c.blocks r.blocks :=
      .of_forall₂ (Results.maps_query hr)
    exact hresolves.comp hmaps (fun _ _ _ hb hb' => Results.maps_lists hb.1 hb.2 hb')
      fun _ _ ⟨⟨s, hs, hb⟩, hnone⟩ hb' => ⟨s, hs, Results.maps_lists hb hnone hb'⟩
  · rw [hc.analyse_eq] at he
    cases hquery : Results.query c with
    | ok r =>
      rw [hquery] at he
      cases he
    | error x =>
      rw [hquery] at he
      cases he
      exact ⟨x, rfl, Results.query_error (Named.results_eq hn hshaped hc) _ hquery⟩
  · rw [hc.analyse_eq]
    cases hquery : Results.query c with
    | error x => exact ⟨.query x, rfl⟩
    | ok r =>
      have hmaps : Interleaved (flip Block.Maps) (fun _ => False) r.blocks c.blocks :=
        .of_forall₂ (Results.maps_query hquery).flip
      obtain ⟨b', -, hb'⟩ := (hmaps.exists_of_mem b hb).resolve_right id
      exact absurd hx (Results.not_flaw_of_maps (Named.results_eq hn hshaped hc b hb) hb')

/-- Scores with the column `*`. -/
def scores : Schema where
  entities :=
    [{ name := "Score", table := "scores"
       properties := [("total", { column := "*", ty := .int }), ("level", { column := "level", ty := .int })] }]

/-- A column `*` is taken for a wildcard: the total loses its alias and its result, and the level is listed.
And of two flaws the first is reported, which may be a missing alias. -/
theorem Query.unlisted_scores :
    ((Query.ofText "SELECT s.total AS points, 1 AS one FROM Score s").toOption.bind fun q =>
      (q.analyse ⟨scores, true⟩).toOption.map fun r => r.blocks.map fun b =>
        (b.fields.map fun f => (f.expr.text, f.label), Pairs.keys b.facts.results))
      = some [([("s.*", none), ("s.level", none), ("1", some "one")], ["level", "one"])]
    ∧ ((Query.ofText "SELECT s.level + 1, s.level, s.level FROM Score s").toOption.map fun q =>
      (q.analyse ⟨scores, true⟩).map fun _ => ()) = some (.error (.query (.missingAlias "s.level + 1"))) := by
  rw [ofText_ofList, ofText_ofList]
  decide +kernel

/-- Offices with their addresses and head offices; a relation has a filter with a subquery. -/
def offices : Schema where
  entities :=
    [{ name := "Office", table := "offices"
       properties := [("id", { column := "id", ty := .int }), ("headId", { column := "head_id", ty := .int }),
         ("address", { column := "address", ty := .json
                       parts := [("city", { column := "city", ty := .string }),
                         ("zip", { column := "zip_code", ty := .string })] })]
       relations := [("head", { target := "Office", link := .forward "headId"
                                filter := some "id IN (SELECT o.headId FROM Office o)" })]
       identifier := ["id"] }]

/-- Offices through a derived table, with the seats of their head offices, and once more. -/
def officesText : String :=
  "SELECT d.*, h.address.city AS seat, (SELECT n.id FROM Office n) AS first "
    ++ "FROM (SELECT * FROM Office) d JOIN Office o ON o.id = d.id JOIN o.head h UNION SELECT x.* FROM Office x"

theorem Query.analyse_lists_offices :
    (∃ q r, Query.ofText officesText = .ok q ∧ q.analyse ⟨offices, true⟩ = .ok r
      ∧ Interleaved Block.Lists (fun b => ∃ s, offices.HasInFilter s ∧ s.block.Lists b) q.blocks r.blocks
      ∧ r.blocks.map (Pairs.keys ·.facts.results)
        = [["id", "headId", "address.city", "address.zip", "seat", "first"], ["id"],
          ["id", "headId", "address.city", "address.zip"], ["headId"], ["id", "headId", "address.city", "address.zip"]])
    ∧ ∃ q c, Query.ofText "SELECT o.*, o.id FROM Office o" = .ok q ∧ q.Named ⟨offices, true⟩ c
      ∧ (∃ b ∈ c.blocks, b.Flaw (.duplicateResultAlias "id")) ∧ ∃ e, q.analyse ⟨offices, true⟩ = .error e := by
  have hn : offices.Starless := by decide +kernel
  constructor
  · have hchecked : ((Query.ofText officesText).toOption.bind fun q =>
        (q.analyse ⟨offices, true⟩).toOption.map fun r => decide (r.blocks.map (Pairs.keys ·.facts.results)
          = [["id", "headId", "address.city", "address.zip", "seat", "first"], ["id"],
            ["id", "headId", "address.city", "address.zip"], ["headId"],
            ["id", "headId", "address.city", "address.zip"]])) = some true := by
      unfold officesText
      rw [← String.ofList_append, ofText_ofList]
      decide +kernel
    obtain ⟨q, r, hq, hr, hkeys⟩ := exists_run hchecked
    exact ⟨q, r, hq, hr, (analyse_lists (n := ⟨offices, true⟩) hn hq).1 r hr, of_decide_eq_true hkeys⟩
  · have hchecked : ((Query.ofText "SELECT o.*, o.id FROM Office o").toOption.bind fun q =>
        ([Pass.sources, .derived, .joins, .columns].foldlM (fun q (p : Pass) => p.run ⟨offices, true⟩ q) q).toOption.map
          fun c => c.blocks.any fun b => decide (1 < b.outputNames.count (some "id"))) = some true := by
      decide +kernel
    obtain ⟨q, c, hq, hc, hcount⟩ := exists_run hchecked
    obtain ⟨b, hb, hcount⟩ := List.any_eq_true.mp hcount
    have hflaw : b.Flaw (.duplicateResultAlias "id") := .inr (.repeated (of_decide_eq_true hcount))
    exact ⟨q, c, hq, hc, ⟨b, hb, hflaw⟩, ((analyse_lists (n := ⟨offices, true⟩) hn hq).2 c hc).2 b hb _ hflaw⟩

end EntitySql
