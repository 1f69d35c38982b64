import Jmm.Proofs.Lowering.Renaming
import Jmm.Proofs.Typing.Agreement
import Jmm.Proofs.Typing.Resolution

/-!
# Methods are independent

The scopes of a class are one list for all its methods, and generated names are counted through all
of them.  Still, if the methods have different names, the locals and the body of a method make no
difference to any other one.

* `ClassDecl.outline` is what is left of a class without the locals and bodies of its methods.
* What a method sees are the fields and its own variables (`Analysis.seen_ofClass`), and the
  violations reported for it are its own (`Analysis.violations_of_method`).  Both depend on the
  outline and on the method alone, so the method agrees with itself in any two classes of one
  outline (`Analysis.lowerer_agrees`).
* The code of a method depends on the methods before it through the counters that they leave, which
  `Lowerer.rename_method` makes up for by renaming.

`methods_independent` puts these together.
-/

set_option autoImplicit false

namespace Jmm

/-- A method without its locals and body. -/
def MethodDecl.outline (d : MethodDecl) : MethodDecl := { d with locals := [], body := [] }

/-- A class without the locals and bodies of its methods. -/
def ClassDecl.outline (c : ClassDecl) : ClassDecl :=
  { c with methods := c.methods.map MethodDecl.outline }

/-- The method that a violation is reported for, none for that of a field. -/
def Violation.method? : Violation → Option String
  | varargField _ _ => none
  | varargNotLast method _ _ | varargReturn method _ | varargLocal method _ _ => some method
  | conditionType _ method _ _ | assignedType method _ _ _ _ => some method
  | staticFieldAssignment method _ _ | untypedReturn method _ | returnType method _ _ _ =>
    some method
  | receiverInStatic caller _ | methodNotFound caller _ _ | argumentTypes caller _ _ => some caller

/-! ## The part of a method -/

/-- Among what the methods of a class give, a property that holds for one of them only selects what
that one gives. -/
theorem filter_flatMap_own {α : Type} {p : α → Bool} {g : MethodDecl → List α}
    {ds : List MethodDecl} {m : MethodDecl} (hnames : (ds.map MethodDecl.name).Nodup) (hm : m ∈ ds)
    (hown : ∀ v ∈ g m, p v = true) (hother : ∀ d, d.name ≠ m.name → ∀ v ∈ g d, p v = false) :
    (ds.flatMap g).filter p = g m := by
  have hpart : ∀ d, d.name ≠ m.name → (g d).filter p = [] := fun d hd ↦
    List.filter_eq_nil_iff.mpr fun v hv ↦ by simp [hother d hd v hv]
  induction ds with
  | nil => exact absurd hm List.not_mem_nil
  | cons d ds ih =>
    obtain ⟨hfirst, hrest⟩ := List.nodup_cons.mp hnames
    rw [List.flatMap_cons, List.filter_append]
    rcases List.mem_cons.mp hm with rfl | hm
    · have hnil : (ds.flatMap g).filter p = [] := by
        rw [List.filter_flatMap, List.flatMap_eq_nil_iff]
        exact fun d hd ↦ hpart d fun h ↦ hfirst (h ▸ List.mem_map_of_mem hd)
      rw [hnil, List.append_nil, List.filter_eq_self.mpr hown]
    · have hne : d.name ≠ m.name := fun h ↦ hfirst (h ▸ List.mem_map_of_mem hm)
      rw [hpart d hne, ih hrest hm, List.nil_append]

/-! ## Violations -/

/-- All violations are reported for the method. -/
def ReportedFor (method : String) (vs : List Violation) : Prop :=
  ∀ v ∈ vs, v.method? = some method

namespace ReportedFor

variable {method : String} {vs ws : List Violation} {v : Violation}

theorem nil : ReportedFor method [] := List.forall_mem_nil _

theorem singleton (h : v.method? = some method) : ReportedFor method [v] :=
  List.forall_mem_singleton.mpr h

theorem append (h : ReportedFor method vs) (h' : ReportedFor method ws) :
    ReportedFor method (vs ++ ws) :=
  List.forall_mem_append.mpr ⟨h, h'⟩

theorem ite {p : Prop} [Decidable p] (h : ReportedFor method vs) (h' : ReportedFor method ws) :
    ReportedFor method (if p then vs else ws) := by
  split
  · exact h
  · exact h'

/-- The violations reported for a method are those that it gives, if each method gives its own. -/
theorem filter_flatMap {g : MethodDecl → List Violation} (h : ∀ d, ReportedFor d.name (g d))
    {ds : List MethodDecl} {m : MethodDecl} (hnames : (ds.map MethodDecl.name).Nodup)
    (hm : m ∈ ds) : (ds.flatMap g).filter (·.method? == some m.name) = g m := by
  refine filter_flatMap_own hnames hm (fun v hv ↦ ?_) fun d hd v hv ↦ ?_
  · simp [h m v hv]
  · simp [h d v hv, hd]

end ReportedFor

namespace Scopes

theorem violations_concat (fs : List Found) :
    (Found.concat fs).violations = fs.flatMap Found.violations := by
  induction fs with
  | nil => rfl
  | cons f fs ih =>
    show f.violations ++ (Found.concat fs).violations = _
    rw [ih, List.flatMap_cons]

/-- What the fields violate is reported for no method. -/
theorem method?_ofField {t : SymbolTable} {d : VarDecl} {v : Violation}
    (h : v ∈ (ofField t d).violations) : v.method? = none := by
  rw [ofField] at h
  split at h
  · obtain rfl := List.mem_singleton.mp h
    rfl
  · split at h <;> exact absurd h List.not_mem_nil

theorem reportedFor_signature (m : MethodDecl) : ReportedFor m.name (signatureViolations m) := by
  rw [signatureViolations]
  split
  · exact .singleton rfl
  · exact .ite (.singleton rfl) .nil

theorem reportedFor_ofLocal (method : String) (report : Bool) (d : VarDecl) (x : Symbol) :
    ReportedFor method (ofLocal method report d x).violations := by
  rw [ofLocal]
  split
  · exact .ite (.singleton rfl) .nil
  · exact .nil

/-- What the declarations of a method violate is reported for it. -/
theorem reportedFor_ofMethod (t : SymbolTable) (m : MethodDecl) :
    ReportedFor m.name (ofMethod t m).violations := by
  rw [ofMethod]
  cases t.method? m.name with
  | none => exact reportedFor_signature m
  | some s =>
    refine .append (.append (reportedFor_signature m) .nil) fun v hv ↦ ?_
    rw [violations_concat] at hv
    obtain ⟨f, hf, hv⟩ := List.mem_flatMap.mp hv
    obtain ⟨i, hi⟩ := List.mem_iff_getElem?.mp hf
    obtain ⟨d, x, _, _, rfl⟩ := List.getElem?_zipWith_eq_some.mp hi
    exact reportedFor_ofLocal m.name _ d x v hv

end Scopes

namespace Checker

variable (c : Checker)

theorem reportedFor_callee (receiver : Expr) (method : String) (args : List Expr) (span : Span) :
    ReportedFor c.decl.name (c.callee receiver method args span) := by
  rw [callee]
  cases c.table.method? method with
  | none => exact .ite (.singleton rfl) .nil
  | some s => exact .ite (.ite .nil (.singleton rfl)) .nil

theorem reportedFor_exprs {es : List Expr} (h : ∀ e ∈ es, ReportedFor c.decl.name (c.expr e)) :
    ReportedFor c.decl.name (c.exprs es) := by
  induction es with
  | nil => exact .nil
  | cons e es ih =>
    obtain ⟨hfirst, hrest⟩ := List.forall_mem_cons.mp h
    exact .append hfirst (ih hrest)

theorem reportedFor_expr (e : Expr) : ReportedFor c.decl.name (c.expr e) := by
  induction e with
  | int | bool | ident | newObject => exact .nil
  | self span => exact .ite (.singleton rfl) .nil
  | paren _ _ ih | not _ _ ih | newArray _ _ _ ih | length _ _ ih => exact ih
  | arrayLit elements span ih => exact c.reportedFor_exprs ih
  | index _ _ _ iha ihb | binary _ _ _ _ iha ihb => exact .append iha ihb
  | call receiver method args span ihr iha =>
    exact .append (.append (c.reportedFor_callee _ _ _ _) ihr) (c.reportedFor_exprs iha)

theorem reportedFor_condition (construct : Construct) (test : Expr) (span : Span) :
    ReportedFor c.decl.name (c.condition construct test span) :=
  .ite .nil (.singleton rfl)

theorem reportedFor_returned (value : Option Expr) (span : Span) :
    ReportedFor c.decl.name (c.returned value span) :=
  .ite (.singleton rfl) (.ite .nil (.singleton rfl))

theorem reportedFor_stmts_of_forall {sts : List Stmt}
    (h : ∀ st ∈ sts, ReportedFor c.decl.name (c.stmt st)) :
    ReportedFor c.decl.name (c.stmts sts) := by
  induction sts with
  | nil => exact .nil
  | cons st sts ih =>
    obtain ⟨hfirst, hrest⟩ := List.forall_mem_cons.mp h
    exact .append hfirst (ih hrest)

theorem reportedFor_stmt (st : Stmt) : ReportedFor c.decl.name (c.stmt st) := by
  induction st with
  | assign target value span =>
    have hstatic : ReportedFor c.decl.name (c.staticAssignment target span) :=
      .ite (.singleton rfl) .nil
    have htype : ReportedFor c.decl.name (c.assignedType target value span) :=
      .ite .nil (.singleton rfl)
    exact .append (.append (.append hstatic htype) (c.reportedFor_expr _)) (c.reportedFor_expr _)
  | expr e span => exact c.reportedFor_expr e
  | ret value span =>
    cases value with
    | none => exact .append (c.reportedFor_returned _ _) .nil
    | some e => exact .append (c.reportedFor_returned _ _) (c.reportedFor_expr e)
  | cond test thenBranch elseBranch span iht ihe =>
    have htest := ReportedFor.append (c.reportedFor_condition .cond test span)
      (c.reportedFor_expr test)
    exact .append (.append htest (c.reportedFor_stmts_of_forall iht))
      (c.reportedFor_stmts_of_forall ihe)
  | loop test body span ih =>
    exact .append (.append (c.reportedFor_condition .loop test span) (c.reportedFor_expr test))
      (c.reportedFor_stmts_of_forall ih)

/-- What the body of a method violates is reported for it. -/
theorem reportedFor_body : ReportedFor c.decl.name c.body :=
  c.reportedFor_stmts_of_forall fun st _ ↦ c.reportedFor_stmt st

end Checker

/-! ## What a method sees -/

namespace Scopes

/-- The variables of a method, and all fields. -/
def seen (s : Scopes) (method : String) : Scopes :=
  ⟨s.entries.filter fun e ↦ e.owner == some method || e.kind == .field⟩

theorem lookup_seen (s : Scopes) (x method : String) :
    (s.seen method).lookup x method = s.lookup x method := by
  simp only [lookup, seen, ← List.filter_reverse, List.filter_filter, List.find?_filter]
  congr 2
  · funext e
    simp only [ScopeEntry.isOwnedBy]
    grind
  · funext e
    grind

theorem isVararg_seen (s : Scopes) (x method : String) :
    (s.seen method).isVararg x method = s.isVararg x method := by
  rw [isVararg, isVararg, seen, List.any_filter]
  congr 1
  funext e
  grind

theorem kind_ofField {t : SymbolTable} {d : VarDecl} {e : ScopeEntry}
    (h : e ∈ (ofField t d).entries) : e.kind = .field := by
  rw [ofField] at h
  split at h
  · exact absurd h List.not_mem_nil
  · split at h
    · obtain rfl := List.mem_singleton.mp h
      rfl
    · exact absurd h List.not_mem_nil

theorem kind_ofLocal {method : String} {report : Bool} {d : VarDecl} {x : Symbol}
    {e : ScopeEntry} (h : e ∈ (ofLocal method report d x).entries) : e.kind = .local := by
  rw [ofLocal] at h
  split at h
  · exact absurd h List.not_mem_nil
  · obtain rfl := List.mem_singleton.mp h
    rfl

/-- The variables that a method contributes are no fields. -/
theorem kind_ofMethod {t : SymbolTable} {m : MethodDecl} {e : ScopeEntry}
    (h : e ∈ (ofMethod t m).entries) : e.kind ≠ .field := by
  rw [ofMethod] at h
  cases hs : t.method? m.name with
  | none =>
    rw [hs] at h
    exact absurd h List.not_mem_nil
  | some s =>
    rw [hs] at h
    rcases List.mem_append.mp h with h | h
    · obtain ⟨p, _, rfl⟩ := List.mem_map.mp h
      exact ScopeKind.noConfusion
    · rw [entries_concat] at h
      obtain ⟨f, hf, he⟩ := List.mem_flatMap.mp h
      obtain ⟨i, hi⟩ := List.mem_iff_getElem?.mp hf
      obtain ⟨d, x, _, _, rfl⟩ := List.getElem?_zipWith_eq_some.mp hi
      rw [kind_ofLocal he]
      exact ScopeKind.noConfusion

end Scopes

/-! ## The parts of an analysis that belong to a method -/

namespace Analysis

variable {imports : List ImportDecl} {cls : ClassDecl} {m : MethodDecl}
  (hnames : (cls.methods.map MethodDecl.name).Nodup) (hm : m ∈ cls.methods)

include hnames hm

/-- **A method sees the fields and its own variables.** -/
theorem seen_ofClass :
    (ofClass imports cls).scopes.seen m.name
      = ⟨cls.fields.flatMap
          (fun d ↦ (Scopes.ofField (SymbolTable.ofClass imports cls) d).entries)
        ++ (Scopes.ofMethod (SymbolTable.ofClass imports cls) m).entries⟩ := by
  have hentries : (ofClass imports cls).scopes.entries
      = cls.fields.flatMap (fun d ↦ (Scopes.ofField (SymbolTable.ofClass imports cls) d).entries)
        ++ cls.methods.flatMap
          (fun d ↦ (Scopes.ofMethod (SymbolTable.ofClass imports cls) d).entries) := by
    show (Scopes.Found.concat _).entries ++ (Scopes.Found.concat _).entries = _
    rw [Scopes.entries_concat, Scopes.entries_concat, List.flatMap_map, List.flatMap_map]
  rw [Scopes.seen, hentries, List.filter_append]
  congr 2
  · refine List.filter_eq_self.mpr fun e he ↦ ?_
    obtain ⟨d, _, he⟩ := List.mem_flatMap.mp he
    simp [Scopes.kind_ofField he]
  · refine filter_flatMap_own hnames hm (fun e he ↦ ?_) fun d hd e he ↦ ?_
    · simp [(Scopes.mem_ofMethod he).1]
    · simp [(Scopes.mem_ofMethod he).1, Scopes.kind_ofMethod he, hd]

/-- **The violations reported for a method are its own**: those of its declarations, and those in
its body. -/
theorem violations_of_method :
    let a := ofClass imports cls
    a.violations.filter (·.method? == some m.name)
      = (Scopes.ofMethod a.table m).violations ++ Checker.body ⟨a.table, a.scopes, m⟩ := by
  intro a
  have hviolations : a.violations
      = cls.fields.flatMap (fun d ↦ (Scopes.ofField a.table d).violations)
        ++ cls.methods.flatMap (fun d ↦ (Scopes.ofMethod a.table d).violations)
        ++ cls.methods.flatMap fun d ↦ Checker.body ⟨a.table, a.scopes, d⟩ := by
    show (Scopes.Found.concat _).violations ++ (Scopes.Found.concat _).violations ++ _ = _
    rw [Scopes.violations_concat, Scopes.violations_concat, List.flatMap_map, List.flatMap_map]
    rfl
  have hfields : (cls.fields.flatMap fun d ↦ (Scopes.ofField a.table d).violations).filter
      (·.method? == some m.name) = [] := by
    refine List.filter_eq_nil_iff.mpr fun v hv ↦ ?_
    obtain ⟨d, _, hv⟩ := List.mem_flatMap.mp hv
    simp [Scopes.method?_ofField hv]
  have hbodies (d : MethodDecl) : ReportedFor d.name (Checker.body ⟨a.table, a.scopes, d⟩) :=
    Checker.reportedFor_body ⟨a.table, a.scopes, d⟩
  rw [hviolations, List.filter_append, List.filter_append, hfields, List.nil_append,
    ReportedFor.filter_flatMap (Scopes.reportedFor_ofMethod a.table) hnames hm,
    ReportedFor.filter_flatMap hbodies hnames hm]

end Analysis

/-! ## Variables of a method -/

theorem Site.not_isField_of_mem_vars {s : Site} {e : Expr} {x : String} (h : x ∈ s.vars e) :
    s.scopes.isField x s.method = false := by
  have hall {es : List Expr}
      (ih : ∀ e ∈ es, x ∈ s.vars e → s.scopes.isField x s.method = false)
      (h : x ∈ s.varsAll es) : s.scopes.isField x s.method = false := by
    induction es with
    | nil => exact absurd h List.not_mem_nil
    | cons e es ihes =>
      obtain ⟨hfirst, hrest⟩ := List.forall_mem_cons.mp ih
      exact (List.mem_append.mp h).elim hfirst (ihes hrest)
  induction e with
  | int | bool | self | newObject => exact absurd h List.not_mem_nil
  | ident name span =>
    rw [vars] at h
    split at h
    · exact absurd h List.not_mem_nil
    · next hnone =>
      obtain rfl := List.mem_singleton.mp h
      simp only [Bool.or_eq_true, not_or, Bool.not_eq_true] at hnone
      exact hnone.2
  | paren _ _ ih | not _ _ ih | newArray _ _ _ ih | length _ _ ih => exact ih h
  | arrayLit elements span ih => exact hall ih h
  | index _ _ _ iha ihb | binary _ _ _ _ iha ihb => exact (List.mem_append.mp h).elim iha ihb
  | call receiver method args span ihr iha => exact (List.mem_append.mp h).elim ihr (hall iha)

namespace Ollir.Lowerer

variable {l : Lowerer} {x : String}

theorem not_isField_of_mem_targetsAll {sts : List Stmt}
    (ih : ∀ st ∈ sts, x ∈ l.targets st → l.scopes.isField x l.decl.name = false)
    (h : x ∈ l.targetsAll sts) : l.scopes.isField x l.decl.name = false := by
  induction sts with
  | nil => exact absurd h List.not_mem_nil
  | cons st sts ihsts =>
    obtain ⟨hfirst, hrest⟩ := List.forall_mem_cons.mp ih
    exact (List.mem_append.mp h).elim hfirst (ihsts hrest)

theorem not_isField_of_mem_targets {st : Stmt} (h : x ∈ l.targets st) :
    l.scopes.isField x l.decl.name = false := by
  induction st with
  | assign target value span =>
    cases target with
    | ident name span =>
      rw [targets] at h
      split at h
      · exact absurd h List.not_mem_nil
      · next hfield =>
        obtain rfl := List.mem_singleton.mp h
        exact Bool.not_eq_true _ ▸ hfield
    | _ => exact absurd h List.not_mem_nil
  | expr | ret => exact absurd h List.not_mem_nil
  | cond test thenBranch elseBranch span iht ihe =>
    exact (List.mem_append.mp h).elim (not_isField_of_mem_targetsAll ihe)
      (not_isField_of_mem_targetsAll iht)
  | loop test body span ih => exact not_isField_of_mem_targetsAll ih h

end Ollir.Lowerer

/-- A variable of a method is a parameter or local of it, or a name that is not declared. -/
theorem Analysis.variable_cases {imports : List ImportDecl} {cls : ClassDecl} {m : MethodDecl}
    (hnames : (cls.methods.map MethodDecl.name).Nodup) (hm : m ∈ cls.methods) {x : String}
    (hx : x ∈ ((ofClass imports cls).lowerer m).varNames) :
    x ∈ m.variables ∨ (ofClass imports cls).scopes.lookup x m.name = none := by
  have hcases (hfield : (ofClass imports cls).scopes.isField x m.name = false) :
      x ∈ m.variables ∨ (ofClass imports cls).scopes.lookup x m.name = none := by
    cases hlookup : (ofClass imports cls).scopes.lookup x m.name with
    | none => exact .inr rfl
    | some e =>
      refine .inl (mem_variables_of_lookup hnames hm hlookup fun hkind ↦ ?_)
      simp [Scopes.isField, hlookup, hkind] at hfield
  rw [Ollir.Lowerer.varNames, List.mem_append, List.mem_append] at hx
  rcases hx with (hx | hx) | hx
  · obtain ⟨o, ho, hx⟩ := List.mem_flatMap.mp hx
    rw [Ollir.Lowerer.params] at ho
    have hsome : ((ofClass imports cls).lowerer m).table.method? m.name
        = some (Signature.ofDecl m) := SymbolTable.method?_ofClass imports hnames hm
    rw [show ((ofClass imports cls).lowerer m).decl = m from rfl, hsome] at ho
    obtain ⟨p, hp, rfl⟩ := List.mem_map.mp ho
    obtain ⟨param, hparam, rfl⟩ := List.mem_map.mp hp
    obtain rfl := List.mem_singleton.mp hx
    exact .inl (List.mem_append_left _ (List.mem_map_of_mem hparam))
  · exact hcases (Ollir.Lowerer.not_isField_of_mem_targetsAll
      (fun st _ ↦ Ollir.Lowerer.not_isField_of_mem_targets) hx)
  · obtain ⟨e, _, hx⟩ := List.mem_flatMap.mp hx
    exact hcases (Site.not_isField_of_mem_vars hx)

/-! ## Two classes of one outline -/

theorem SymbolTable.ofClass_outline (imports : List ImportDecl) (cls : ClassDecl) :
    ofClass imports cls.outline = (ofClass imports cls).withoutLocals := by
  simp only [ofClass, ClassDecl.outline, withoutLocals, List.map_map]
  rfl

section

variable (imports : List ImportDecl) {cls cls' : ClassDecl} {m : MethodDecl}
  (hsame : cls.outline = cls'.outline) (hnames : (cls.methods.map MethodDecl.name).Nodup)

include hsame

theorem SymbolTable.ofClass_congr :
    (ofClass imports cls).withoutLocals = (ofClass imports cls').withoutLocals := by
  rw [← ofClass_outline, ← ofClass_outline, hsame]

theorem ClassDecl.fields_congr : cls.fields = cls'.fields := (congrArg fields hsame :)

theorem ClassDecl.names_congr :
    cls.methods.map MethodDecl.name = cls'.methods.map MethodDecl.name := by
  have hmap (c : ClassDecl) :
      c.outline.methods.map MethodDecl.name = c.methods.map MethodDecl.name := by
    rw [ClassDecl.outline, List.map_map]
    rfl
  rw [← hmap, hsame, hmap]

theorem Scopes.ofField_congr : ofField (SymbolTable.ofClass imports cls)
    = ofField (SymbolTable.ofClass imports cls') := by
  funext d
  simp only [ofField, SymbolTable.field?, SymbolTable.ofClass, ClassDecl.fields_congr hsame]

variable (hm : m ∈ cls.methods) (hm' : m ∈ cls'.methods)

include hnames hm hm'

/-- The declarations of the method contribute the same to both. -/
theorem Scopes.ofMethod_congr : ofMethod (SymbolTable.ofClass imports cls) m
    = ofMethod (SymbolTable.ofClass imports cls') m := by
  have hnames' := ClassDecl.names_congr hsame ▸ hnames
  rw [ofMethod, ofMethod, SymbolTable.method?_ofClass imports hnames hm,
    SymbolTable.method?_ofClass imports hnames' hm']

/-- The method sees the same in both. -/
theorem Analysis.seen_congr :
    (ofClass imports cls).scopes.seen m.name = (ofClass imports cls').scopes.seen m.name := by
  have hnames' := ClassDecl.names_congr hsame ▸ hnames
  rw [seen_ofClass hnames hm, seen_ofClass hnames' hm', ClassDecl.fields_congr hsame,
    Scopes.ofField_congr imports hsame, Scopes.ofMethod_congr imports hsame hnames hm hm']

/-- **The method is the same place in both classes.** -/
theorem Analysis.lowerer_agrees :
    ((ofClass imports cls).lowerer m).Agrees ((ofClass imports cls').lowerer m) := by
  have hseen := seen_congr imports hsame hnames hm hm'
  refine ⟨⟨SymbolTable.ofClass_congr imports hsame, rfl, fun x ↦ ?_, fun x ↦ ?_⟩, rfl⟩
  · show (ofClass imports cls).scopes.lookup x m.name
      = (ofClass imports cls').scopes.lookup x m.name
    rw [← Scopes.lookup_seen, hseen, Scopes.lookup_seen]
  · show (ofClass imports cls).scopes.isVararg x m.name
      = (ofClass imports cls').scopes.isVararg x m.name
    rw [← Scopes.isVararg_seen, hseen, Scopes.isVararg_seen]

/-- The violations reported for the method are the same in both. -/
theorem Analysis.violations_congr :
    (ofClass imports cls).violations.filter (·.method? == some m.name)
      = (ofClass imports cls').violations.filter (·.method? == some m.name) := by
  have hagrees : Checker.Agrees
      ⟨(ofClass imports cls).table, (ofClass imports cls).scopes, m⟩
      ⟨(ofClass imports cls').table, (ofClass imports cls').scopes, m⟩ :=
    ⟨(lowerer_agrees imports hsame hnames hm hm').site, rfl, rfl⟩
  have hnames' := ClassDecl.names_congr hsame ▸ hnames
  rw [violations_of_method hnames hm, violations_of_method hnames' hm']
  congr 1
  · exact congrArg Scopes.Found.violations (Scopes.ofMethod_congr imports hsame hnames hm hm')
  · exact hagrees.stmts_eq m.body

end

open Ollir in
/-- **Methods are analysed and lowered independently.**  Take two classes with the same outline and
different method names, which therefore differ in the locals and bodies of methods only, and a
method that is the same in both.  The violations reported for it are the same, names mean the same
in it, and expressions have the same types.  If none of its variables has a generated name, as many
names of each kind are drawn while it is lowered, and its code is the same up to replacing those
drawn in one class, in order, by those drawn in the other.  Its variables are its parameters and
locals, and names it uses that are not declared at all. -/
theorem methods_independent (imports : List ImportDecl) {cls cls' : ClassDecl} {m : MethodDecl}
    {i : Nat} (hsame : cls.outline = cls'.outline)
    (hnames : (cls.methods.map MethodDecl.name).Nodup) (hm : cls.methods[i]? = some m)
    (hm' : cls'.methods[i]? = some m) :
    let a := Analysis.ofClass imports cls
    let a' := Analysis.ofClass imports cls'
    let n := (lowerMethods a (cls.methods.take i) {}).2
    let n₁ := (lowerMethods a (cls.methods.take (i + 1)) {}).2
    let n' := (lowerMethods a' (cls'.methods.take i) {}).2
    let n₁' := (lowerMethods a' (cls'.methods.take (i + 1)) {}).2
    a.violations.filter (·.method? == some m.name)
        = a'.violations.filter (·.method? == some m.name)
      ∧ (∀ x, a.scopes.lookup x m.name = a'.scopes.lookup x m.name
        ∧ a.scopes.isVararg x m.name = a'.scopes.isVararg x m.name)
      ∧ (∀ e, (a.lowerer m).site.typeOf e = (a'.lowerer m).site.typeOf e)
      ∧ (∀ x ∈ (a.lowerer m).varNames, x ∈ m.variables ∨ a.scopes.lookup x m.name = none)
      ∧ ((∀ x ∈ (a.lowerer m).varNames, ¬ IsGenerated x) →
        (∀ k, n₁.count k - n.count k = n₁'.count k - n'.count k)
        ∧ ∃ lowered, (a.lower cls).methods[i]? = some lowered
          ∧ (a'.lower cls').methods[i]? = some (lowered.rename (.shift n n₁ n'))) := by
  intro a a' n n₁ n' n₁'
  have hmem : m ∈ cls.methods := List.mem_of_getElem? hm
  have hmem' : m ∈ cls'.methods := List.mem_of_getElem? hm'
  have hagrees : (a.lowerer m).Agrees (a'.lowerer m) :=
    Analysis.lowerer_agrees imports hsame hnames hmem hmem'
  refine ⟨Analysis.violations_congr imports hsame hnames hmem hmem',
    fun x ↦ ⟨hagrees.site.lookup x, hagrees.site.isVararg x⟩, hagrees.site.typeOf_eq,
    fun x ↦ Analysis.variable_cases hnames hmem, fun hplain ↦ ?_⟩
  obtain ⟨hcode, hnext⟩ := lowerMethods_take a hm {}
  obtain ⟨hcode', hnext'⟩ := lowerMethods_take a' hm' {}
  rw [← hagrees.method_eq] at hcode' hnext'
  obtain ⟨hrename, hcounts⟩ := (a.lowerer m).rename_method hplain n n'
  have hstop : n₁ = ((a.lowerer m).method n).2 := hnext
  have hstop' : n₁' = ((a.lowerer m).method n').2 := hnext'
  refine ⟨fun k ↦ ?_, _, hcode, hcode'.trans ?_⟩
  · obtain ⟨hle, hcount⟩ := hcounts k
    rw [hstop, hstop']
    omega
  · rw [hstop]
    exact congrArg some hrename

open Ollir in
/-- The statement for `if (x) {} return (a + x) * 2;` in a method `g` of a class with a field `a`,
after a method `f` that only returns zero in one class.  In the other `f` has the same body as `g`,
with `a` and `x` as locals.  The field is still read in `g`, the test is reported for it as before,
and its temporaries and labels have higher numbers. -/
theorem methods_independent_field :
    let x (name : String) : Expr := .ident name {}
    let int : TypeName := { name := "int" }
    let f (locals : List VarDecl) (body : List Stmt) : MethodDecl :=
      { name := "f", isPublic := true, isStatic := false, returns := int, params := [],
        locals, body }
    let sum : Expr := .binary .mul (.binary .add (x "a") (x "x") {}) (.int 2 {}) {}
    let g : MethodDecl :=
      { name := "g", isPublic := true, isStatic := false, returns := int,
        params := [{ name := "x", type := int }], locals := [],
        body := [.cond (x "x") [] [] {}, .ret (some sum) {}] }
    let cls (d : MethodDecl) : ClassDecl :=
      { name := "Main", superclass := none, fields := [{ name := "a", type := int }],
        methods := [d, g] }
    let short := cls (f [] [.ret (some (.int 0 {})) {}])
    let long := cls (f [{ name := "a", type := int }, { name := "x", type := int }] g.body)
    let a := Analysis.ofClass [] short
    let a' := Analysis.ofClass [] long
    a.violations = [.conditionType .cond "g" .int {}]
      ∧ a'.violations.filter (·.method? == some "g") = a.violations
      ∧ a'.scopes.lookup "a" "g" = some ⟨"a", .field, none, .int, false⟩
      ∧ ∃ lowered ρ, (a.lower short).methods[1]? = some lowered
        ∧ lowered.writes = ["tmp0", "tmp1", "tmp2"]
        ∧ lowered.labels = [("ifbody_0", 2), ("endif_0", 2)]
        ∧ (a'.lower long).methods[1]? = some (lowered.rename ρ)
        ∧ (lowered.rename ρ).writes = ["tmp2", "tmp3", "tmp4"]
        ∧ (lowered.rename ρ).labels = [("ifbody_1", 2), ("endif_1", 2)] := by
  intro x int f sum g cls short long a a'
  have hplain : ∀ y ∈ (a.lowerer g).varNames, ¬ IsGenerated y := by
    have hhead : ∀ y ∈ (a.lowerer g).varNames,
        y.toList.head? ≠ some 't' ∧ y.toList.head? ≠ some '_' := by
      decide +kernel
    exact fun y hy h ↦ h.head?.elim (hhead y hy).1 (hhead y hy).2
  obtain ⟨hviolations, hscopes, _, _, hcode⟩ :=
    @methods_independent [] short long g 1 rfl (by decide) rfl rfl
  obtain ⟨_, lowered, hlowered, hrenamed⟩ := hcode hplain
  have hshort : a.violations = [.conditionType .cond "g" .int {}]
      ∧ a.violations.filter (·.method? == some "g") = a.violations
      ∧ a.scopes.lookup "a" "g" = some ⟨"a", .field, none, .int, false⟩ := by
    decide +kernel
  have hwrites : (a.lower short).methods[1]?.map (fun m ↦ (m.writes, m.labels))
      = some (["tmp0", "tmp1", "tmp2"], [("ifbody_0", 2), ("endif_0", 2)]) := by
    decide +kernel
  have hwrites' : (a'.lower long).methods[1]?.map (fun m ↦ (m.writes, m.labels))
      = some (["tmp2", "tmp3", "tmp4"], [("ifbody_1", 2), ("endif_1", 2)]) := by
    decide +kernel
  rw [hlowered, Option.map_some, Option.some.injEq, Prod.mk.injEq] at hwrites
  rw [hrenamed, Option.map_some, Option.some.injEq, Prod.mk.injEq] at hwrites'
  exact ⟨hshort.1, hviolations.symm.trans hshort.2.1, (hscopes "a").1.symm.trans hshort.2.2,
    lowered, _, hlowered, hwrites.1, hwrites.2, hrenamed, hwrites'.1, hwrites'.2⟩

end Jmm
