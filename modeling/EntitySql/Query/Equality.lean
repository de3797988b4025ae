import EntitySql.Query.Tree

/-!
# Equality of query trees

Trees are compared part by part (`Expr.same` and its companions). `Expr.same_iff` and
`Select.same_iff` say that this decides equality, which gives the instances.
-/

namespace EntitySql

mutual
def Expr.same : Expr → Expr → Bool
  | .ident a, .ident b => a == b
  | .literal a, .literal b => a == b
  | .marker a, .marker b => a == b
  | .named a, .named b => a == b
  | .call n d as, .call m e bs => n == m && d == e && sameExprs as bs
  | .list as, .list bs => sameExprs as bs
  | .arith o a b, .arith p c d => o == p && Expr.same a c && Expr.same b d
  | .compare o a b, .compare p c d => o == p && Expr.same a c && Expr.same b d
  | .logic o a b, .logic p c d => o == p && Expr.same a c && Expr.same b d
  | .unary o a, .unary p b => o == p && Expr.same a b
  | .case o bs e, .case p cs f => sameOptExpr o p && sameBranches bs cs && sameOptExpr e f
  | .subquery a, .subquery b => Select.same a b
  | _, _ => false
termination_by structural a => a
def sameExprs : List Expr → List Expr → Bool
  | [], [] => true
  | a :: as, b :: bs => Expr.same a b && sameExprs as bs
  | _, _ => false
termination_by structural a => a
def sameOptExpr : Option Expr → Option Expr → Bool
  | none, none => true
  | some a, some b => Expr.same a b
  | _, _ => false
termination_by structural a => a
def sameBranches : List Branch → List Branch → Bool
  | [], [] => true
  | ⟨c, r⟩ :: as, ⟨d, s⟩ :: bs => Expr.same c d && Expr.same r s && sameBranches as bs
  | _, _ => false
termination_by structural a => a
def sameFields : List ResultField → List ResultField → Bool
  | [], [] => true
  | ⟨e, a⟩ :: as, ⟨f, b⟩ :: bs => Expr.same e f && a == b && sameFields as bs
  | _, _ => false
termination_by structural a => a
def sameOrders : List OrderItem → List OrderItem → Bool
  | [], [] => true
  | ⟨e, a⟩ :: as, ⟨f, b⟩ :: bs => Expr.same e f && a == b && sameOrders as bs
  | _, _ => false
termination_by structural a => a
def Table.same : Table → Table → Bool
  | .named n a, .named m b => n == m && a == b
  | .derived s a, .derived t b => Select.same s t && a == b
  | _, _ => false
termination_by structural a => a
def sameOptTable : Option Table → Option Table → Bool
  | none, none => true
  | some a, some b => Table.same a b
  | _, _ => false
termination_by structural a => a
def sameJoins : List Join → List Join → Bool
  | [], [] => true
  | ⟨k, t, c, p⟩ :: as, ⟨l, u, d, q⟩ :: bs =>
    k == l && Table.same t u && sameOptExpr c d && p == q && sameJoins as bs
  | _, _ => false
termination_by structural a => a
def sameUnions : List UnionPart → List UnionPart → Bool
  | [], [] => true
  | ⟨a, s⟩ :: as, ⟨b, t⟩ :: bs => a == b && Select.same s t && sameUnions as bs
  | _, _ => false
termination_by structural a => a
def Select.same : Select → Select → Bool
  | ⟨d, fs, t, js, c, gs, h, os, l, o, us, f⟩, ⟨d', fs', t', js', c', gs', h', os', l', o', us', f'⟩ =>
    d == d' && sameFields fs fs' && sameOptTable t t' && sameJoins js js' && sameOptExpr c c'
      && sameExprs gs gs' && sameOptExpr h h' && sameOrders os os' && sameOptExpr l l'
      && sameOptExpr o o' && sameUnions us us' && f == f'
termination_by structural a => a
end

mutual
theorem Expr.same_iff : ∀ a b : Expr, Expr.same a b = true ↔ a = b
  | .ident a => fun b => by cases b <;> simp [Expr.same]
  | .literal a => fun b => by cases b <;> simp [Expr.same]
  | .marker a => fun b => by cases b <;> simp [Expr.same]
  | .named a => fun b => by cases b <;> simp [Expr.same]
  | .call n d as => fun b => by cases b <;> simp [Expr.same, sameExprs_iff as, and_assoc]
  | .list as => fun b => by cases b <;> simp [Expr.same, sameExprs_iff as]
  | .arith o l r => fun b => by cases b <;> simp [Expr.same, Expr.same_iff l, Expr.same_iff r, and_assoc]
  | .compare o l r => fun b => by cases b <;> simp [Expr.same, Expr.same_iff l, Expr.same_iff r, and_assoc]
  | .logic o l r => fun b => by cases b <;> simp [Expr.same, Expr.same_iff l, Expr.same_iff r, and_assoc]
  | .unary o e => fun b => by cases b <;> simp [Expr.same, Expr.same_iff e]
  | .case o bs e => fun b => by
    cases b <;> simp [Expr.same, sameOptExpr_iff o, sameBranches_iff bs, sameOptExpr_iff e, and_assoc]
  | .subquery s => fun b => by cases b <;> simp [Expr.same, Select.same_iff s]
theorem sameExprs_iff : ∀ as bs : List Expr, sameExprs as bs = true ↔ as = bs
  | [] => fun bs => by cases bs <;> simp [sameExprs]
  | a :: as => fun bs => by cases bs <;> simp [sameExprs, Expr.same_iff a, sameExprs_iff as]
theorem sameOptExpr_iff : ∀ a b : Option Expr, sameOptExpr a b = true ↔ a = b
  | none => fun b => by cases b <;> simp [sameOptExpr]
  | some a => fun b => by cases b <;> simp [sameOptExpr, Expr.same_iff a]
theorem sameBranches_iff : ∀ as bs : List Branch, sameBranches as bs = true ↔ as = bs
  | [] => fun bs => by cases bs <;> simp [sameBranches]
  | ⟨c, r⟩ :: as => fun bs => by
    cases bs with
    | nil => simp [sameBranches]
    | cons b bs => cases b; simp [sameBranches, Expr.same_iff c, Expr.same_iff r, sameBranches_iff as]
theorem sameFields_iff : ∀ as bs : List ResultField, sameFields as bs = true ↔ as = bs
  | [] => fun bs => by cases bs <;> simp [sameFields]
  | ⟨e, a⟩ :: as => fun bs => by
    cases bs with
    | nil => simp [sameFields]
    | cons b bs => cases b; simp [sameFields, Expr.same_iff e, sameFields_iff as]
theorem sameOrders_iff : ∀ as bs : List OrderItem, sameOrders as bs = true ↔ as = bs
  | [] => fun bs => by cases bs <;> simp [sameOrders]
  | ⟨e, a⟩ :: as => fun bs => by
    cases bs with
    | nil => simp [sameOrders]
    | cons b bs => cases b; simp [sameOrders, Expr.same_iff e, sameOrders_iff as]
theorem Table.same_iff : ∀ a b : Table, Table.same a b = true ↔ a = b
  | .named n a => fun b => by cases b <;> simp [Table.same]
  | .derived s a => fun b => by cases b <;> simp [Table.same, Select.same_iff s]
theorem sameOptTable_iff : ∀ a b : Option Table, sameOptTable a b = true ↔ a = b
  | none => fun b => by cases b <;> simp [sameOptTable]
  | some a => fun b => by cases b <;> simp [sameOptTable, Table.same_iff a]
theorem sameJoins_iff : ∀ as bs : List Join, sameJoins as bs = true ↔ as = bs
  | [] => fun bs => by cases bs <;> simp [sameJoins]
  | ⟨k, t, c, p⟩ :: as => fun bs => by
    cases bs with
    | nil => simp [sameJoins]
    | cons b bs =>
      cases b
      simp [sameJoins, Table.same_iff t, sameOptExpr_iff c, sameJoins_iff as, and_assoc]
theorem sameUnions_iff : ∀ as bs : List UnionPart, sameUnions as bs = true ↔ as = bs
  | [] => fun bs => by cases bs <;> simp [sameUnions]
  | ⟨a, s⟩ :: as => fun bs => by
    cases bs with
    | nil => simp [sameUnions]
    | cons b bs => cases b; simp [sameUnions, Select.same_iff s, sameUnions_iff as]
theorem Select.same_iff : ∀ a b : Select, Select.same a b = true ↔ a = b
  | ⟨d, fs, t, js, c, gs, h, os, l, o, us, f⟩ => fun b => by
    cases b
    simp [Select.same, sameFields_iff fs, sameOptTable_iff t, sameJoins_iff js, sameOptExpr_iff c,
      sameExprs_iff gs, sameOptExpr_iff h, sameOrders_iff os, sameOptExpr_iff l, sameOptExpr_iff o,
      sameUnions_iff us, and_assoc]
end

instance : DecidableEq Expr := fun a b => decidable_of_iff _ (Expr.same_iff a b)

instance : DecidableEq Select := fun a b => decidable_of_iff _ (Select.same_iff a b)

instance : DecidableEq Table := fun a b => decidable_of_iff _ (Table.same_iff a b)

instance : DecidableEq Branch := fun a b =>
  decidable_of_iff (sameBranches [a] [b] = true) (by simp [sameBranches_iff])

instance : DecidableEq ResultField := fun a b =>
  decidable_of_iff (sameFields [a] [b] = true) (by simp [sameFields_iff])

instance : DecidableEq OrderItem := fun a b =>
  decidable_of_iff (sameOrders [a] [b] = true) (by simp [sameOrders_iff])

instance : DecidableEq Join := fun a b =>
  decidable_of_iff (sameJoins [a] [b] = true) (by simp [sameJoins_iff])

instance : DecidableEq UnionPart := fun a b =>
  decidable_of_iff (sameUnions [a] [b] = true) (by simp [sameUnions_iff])

deriving instance DecidableEq for Assignment

deriving instance DecidableEq for InsertSource

deriving instance DecidableEq for Insert

deriving instance DecidableEq for Update

deriving instance DecidableEq for Delete

deriving instance DecidableEq for Query

end EntitySql
