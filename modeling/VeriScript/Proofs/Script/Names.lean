import VeriScript.Script.Basic

/-!
# What a script mentions

* `Expr.AllTypes` — every type that is written in a script has a property.
* `Expr.Uses` — a name is used where nothing in the script binds it.
-/

namespace VeriScript

/-! ## Written types -/

mutual

def Pattern.AllTypes (P : Ty → Prop) : Pattern → Prop
  | .wildcard _ type? => ∀ t ∈ type?, P t
  | .var _ _ type? => ∀ t ∈ type?, P t
  | .tuple _ elems type? => (∀ t ∈ type?, P t) ∧ Pattern.AllTypesList P elems
  | .paren _ inner type? => (∀ t ∈ type?, P t) ∧ inner.AllTypes P

def Pattern.AllTypesList (P : Ty → Prop) : List Pattern → Prop
  | [] => True
  | p :: ps => p.AllTypes P ∧ Pattern.AllTypesList P ps

end

mutual

/-- Every type that is written in the expression has the property. -/
def Expr.AllTypes (P : Ty → Prop) : Expr → Prop
  | .bool _ _ | .int _ _ | .string _ _ | .code _ _ | .termType _ _ | .var _ _ => True
  | .array _ es | .tuple _ es => Expr.AllTypesList P es
  | .record _ fields => Expr.AllTypesFields P fields
  | .index _ a i => a.AllTypes P ∧ i.AllTypes P
  | .field _ e _ | .proj _ e _ | .paren _ e => e.AllTypes P
  | .lam _ p e => p.AllTypes P ∧ e.AllTypes P
  | .app _ f a => f.AllTypes P ∧ a.AllTypes P
  | .letIn _ g e => g.AllTypes P ∧ e.AllTypes P
  | .typed _ e t => P t ∧ e.AllTypes P
  | .ite _ c y n => c.AllTypes P ∧ y.AllTypes P ∧ n.AllTypes P
  | .block _ body => Stmt.AllTypesList P body

def Expr.AllTypesList (P : Ty → Prop) : List Expr → Prop
  | [] => True
  | e :: es => e.AllTypes P ∧ Expr.AllTypesList P es

def Expr.AllTypesFields (P : Ty → Prop) : List (String × Expr) → Prop
  | [] => True
  | (_, e) :: fields => e.AllTypes P ∧ Expr.AllTypesFields P fields

def Decl.AllTypes (P : Ty → Prop) : Decl → Prop
  | .mk _ p e => p.AllTypes P ∧ e.AllTypes P

def Decl.AllTypesList (P : Ty → Prop) : List Decl → Prop
  | [] => True
  | d :: ds => d.AllTypes P ∧ Decl.AllTypesList P ds

def Group.AllTypes (P : Ty → Prop) : Group → Prop
  | .single _ d => d.AllTypes P
  | .recursive _ ds => Decl.AllTypesList P ds

/-- Every type that is written in the statement has the property. -/
def Stmt.AllTypes (P : Ty → Prop) : Stmt → Prop
  | .bind _ p e => p.AllTypes P ∧ e.AllTypes P
  | .define _ g => g.AllTypes P
  | .typedef _ _ t => P t
  | .code _ _ | .importTerms _ _ _ => True

def Stmt.AllTypesList (P : Ty → Prop) : List Stmt → Prop
  | [] => True
  | s :: ss => s.AllTypes P ∧ Stmt.AllTypesList P ss

end

section
set_option linter.unusedSectionVars false
variable {P Q : Ty → Prop} (h : ∀ t, P t → Q t)
include h

mutual

theorem Pattern.allTypes_imp : ∀ p : Pattern, p.AllTypes P → p.AllTypes Q
  | .wildcard _ _, hp => fun t ht => h t (hp t ht)
  | .var _ _ _, hp => fun t ht => h t (hp t ht)
  | .tuple _ ps _, hp => ⟨fun t ht => h t (hp.1 t ht), Pattern.allTypesList_imp ps hp.2⟩
  | .paren _ p _, hp => ⟨fun t ht => h t (hp.1 t ht), p.allTypes_imp hp.2⟩

theorem Pattern.allTypesList_imp : ∀ ps : List Pattern, Pattern.AllTypesList P ps → Pattern.AllTypesList Q ps
  | [], _ => trivial
  | p :: ps, hps => ⟨p.allTypes_imp hps.1, Pattern.allTypesList_imp ps hps.2⟩

end

mutual

theorem Expr.allTypes_imp : ∀ e : Expr, e.AllTypes P → e.AllTypes Q
  | .bool _ _, _ | .int _ _, _ | .string _ _, _ | .code _ _, _ | .termType _ _, _ | .var _ _, _ => trivial
  | .array _ es, he | .tuple _ es, he => Expr.allTypesList_imp es he
  | .record _ fields, he => Expr.allTypesFields_imp fields he
  | .index _ a i, he => ⟨a.allTypes_imp he.1, i.allTypes_imp he.2⟩
  | .field _ e _, he | .proj _ e _, he | .paren _ e, he => e.allTypes_imp he
  | .lam _ p e, he => ⟨p.allTypes_imp h he.1, e.allTypes_imp he.2⟩
  | .app _ f a, he => ⟨f.allTypes_imp he.1, a.allTypes_imp he.2⟩
  | .letIn _ g e, he => ⟨g.allTypes_imp he.1, e.allTypes_imp he.2⟩
  | .typed _ e _, he => ⟨h _ he.1, e.allTypes_imp he.2⟩
  | .ite _ c y n, he => ⟨c.allTypes_imp he.1, y.allTypes_imp he.2.1, n.allTypes_imp he.2.2⟩
  | .block _ body, he => Stmt.allTypesList_imp body he

theorem Expr.allTypesList_imp : ∀ es : List Expr, Expr.AllTypesList P es → Expr.AllTypesList Q es
  | [], _ => trivial
  | e :: es, hes => ⟨e.allTypes_imp hes.1, Expr.allTypesList_imp es hes.2⟩

theorem Expr.allTypesFields_imp : ∀ fields : List (String × Expr),
    Expr.AllTypesFields P fields → Expr.AllTypesFields Q fields
  | [], _ => trivial
  | (_, e) :: fields, hes => ⟨e.allTypes_imp hes.1, Expr.allTypesFields_imp fields hes.2⟩

theorem Decl.allTypes_imp : ∀ d : Decl, d.AllTypes P → d.AllTypes Q
  | .mk _ p e, hd => ⟨p.allTypes_imp h hd.1, e.allTypes_imp hd.2⟩

theorem Decl.allTypesList_imp : ∀ ds : List Decl, Decl.AllTypesList P ds → Decl.AllTypesList Q ds
  | [], _ => trivial
  | d :: ds, hds => ⟨d.allTypes_imp hds.1, Decl.allTypesList_imp ds hds.2⟩

theorem Group.allTypes_imp : ∀ g : Group, g.AllTypes P → g.AllTypes Q
  | .single _ d, hg => d.allTypes_imp hg
  | .recursive _ ds, hg => Decl.allTypesList_imp ds hg

theorem Stmt.allTypes_imp : ∀ s : Stmt, s.AllTypes P → s.AllTypes Q
  | .bind _ p e, hs => ⟨p.allTypes_imp h hs.1, e.allTypes_imp hs.2⟩
  | .define _ g, hs => g.allTypes_imp hs
  | .typedef _ _ _, hs => h _ hs
  | .code _ _, _ | .importTerms _ _ _, _ => trivial

theorem Stmt.allTypesList_imp : ∀ ss : List Stmt, Stmt.AllTypesList P ss → Stmt.AllTypesList Q ss
  | [], _ => trivial
  | s :: ss, hss => ⟨s.allTypes_imp hss.1, Stmt.allTypesList_imp ss hss.2⟩

end

end

mutual

theorem Pattern.allTypes_true : ∀ p : Pattern, p.AllTypes fun _ => True
  | .wildcard _ _ | .var _ _ _ => fun _ _ => trivial
  | .tuple _ ps _ => ⟨fun _ _ => trivial, Pattern.allTypesList_true ps⟩
  | .paren _ p _ => ⟨fun _ _ => trivial, p.allTypes_true⟩

theorem Pattern.allTypesList_true : ∀ ps : List Pattern, Pattern.AllTypesList (fun _ => True) ps
  | [] => trivial
  | p :: ps => ⟨p.allTypes_true, Pattern.allTypesList_true ps⟩

end

mutual

theorem Expr.allTypes_true : ∀ e : Expr, e.AllTypes fun _ => True
  | .bool _ _ | .int _ _ | .string _ _ | .code _ _ | .termType _ _ | .var _ _ => trivial
  | .array _ es | .tuple _ es => Expr.allTypesList_true es
  | .record _ fields => Expr.allTypesFields_true fields
  | .field _ e _ | .proj _ e _ | .paren _ e => e.allTypes_true
  | .lam _ p e => ⟨p.allTypes_true, e.allTypes_true⟩
  | .index _ a b | .app _ a b => ⟨a.allTypes_true, b.allTypes_true⟩
  | .letIn _ g e => ⟨g.allTypes_true, e.allTypes_true⟩
  | .typed _ e _ => ⟨trivial, e.allTypes_true⟩
  | .ite _ c y n => ⟨c.allTypes_true, y.allTypes_true, n.allTypes_true⟩
  | .block _ body => Stmt.allTypesList_true body

theorem Expr.allTypesList_true : ∀ es : List Expr, Expr.AllTypesList (fun _ => True) es
  | [] => trivial
  | e :: es => ⟨e.allTypes_true, Expr.allTypesList_true es⟩

theorem Expr.allTypesFields_true : ∀ fields : List (String × Expr), Expr.AllTypesFields (fun _ => True) fields
  | [] => trivial
  | (_, e) :: fields => ⟨e.allTypes_true, Expr.allTypesFields_true fields⟩

theorem Decl.allTypes_true : ∀ d : Decl, d.AllTypes fun _ => True
  | .mk _ p e => ⟨p.allTypes_true, e.allTypes_true⟩

theorem Decl.allTypesList_true : ∀ ds : List Decl, Decl.AllTypesList (fun _ => True) ds
  | [] => trivial
  | d :: ds => ⟨d.allTypes_true, Decl.allTypesList_true ds⟩

theorem Group.allTypes_true : ∀ g : Group, g.AllTypes fun _ => True
  | .single _ d => d.allTypes_true
  | .recursive _ ds => Decl.allTypesList_true ds

theorem Stmt.allTypes_true : ∀ s : Stmt, s.AllTypes fun _ => True
  | .bind _ p e => ⟨p.allTypes_true, e.allTypes_true⟩
  | .define _ g => g.allTypes_true
  | .typedef _ _ _ | .code _ _ | .importTerms _ _ _ => trivial

theorem Stmt.allTypesList_true : ∀ ss : List Stmt, Stmt.AllTypesList (fun _ => True) ss
  | [] => trivial
  | s :: ss => ⟨s.allTypes_true, Stmt.allTypesList_true ss⟩

end

/-! ## Free names -/

def Group.names (g : Group) : List String :=
  g.decls.flatMap fun d => d.pattern.names

mutual

/-- The expression uses a name that it does not bind itself. -/
def Expr.Uses (x : String) : Expr → Prop
  | .bool _ _ | .int _ _ | .string _ _ | .code _ _ | .termType _ _ => False
  | .var _ y => y = x
  | .array _ es | .tuple _ es => Expr.UsesList x es
  | .record _ fields => Expr.UsesFields x fields
  | .index _ a i => a.Uses x ∨ i.Uses x
  | .field _ e _ | .proj _ e _ | .paren _ e | .typed _ e _ => e.Uses x
  | .lam _ p e => x ∉ p.names ∧ e.Uses x
  | .app _ f a => f.Uses x ∨ a.Uses x
  | .letIn _ g e => g.Uses x ∨ x ∉ g.names ∧ e.Uses x
  | .ite _ c y n => c.Uses x ∨ y.Uses x ∨ n.Uses x
  | .block _ body => Stmt.UsesList x body

def Expr.UsesList (x : String) : List Expr → Prop
  | [] => False
  | e :: es => e.Uses x ∨ Expr.UsesList x es

def Expr.UsesFields (x : String) : List (String × Expr) → Prop
  | [] => False
  | (_, e) :: fields => e.Uses x ∨ Expr.UsesFields x fields

/-- The declaration uses a name, which it may bind too. -/
def Decl.Uses (x : String) : Decl → Prop
  | .mk _ _ e => e.Uses x

def Decl.UsesList (x : String) : List Decl → Prop
  | [] => False
  | d :: ds => d.Uses x ∨ Decl.UsesList x ds

/-- The group uses a name that comes from outside it: the names of a recursive group are its own. -/
def Group.Uses (x : String) : Group → Prop
  | .single _ d => d.Uses x
  | .recursive _ ds => x ∉ ds.flatMap (fun d => d.pattern.names) ∧ Decl.UsesList x ds

/-- The statements use a name that those before them do not bind. -/
def Stmt.UsesList (x : String) : List Stmt → Prop
  | [] => False
  | .bind _ p e :: rest => e.Uses x ∨ x ∉ p.names ∧ Stmt.UsesList x rest
  | .define _ g :: rest => g.Uses x ∨ x ∉ g.names ∧ Stmt.UsesList x rest
  | .typedef _ _ _ :: rest | .code _ _ :: rest | .importTerms _ _ _ :: rest => Stmt.UsesList x rest

end

end VeriScript
